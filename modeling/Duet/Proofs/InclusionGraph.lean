import Duet.Files.Inclusion
import Duet.Proofs.Spelling
import Mathlib.Data.List.Chain
import Mathlib.Data.List.TakeWhile
import Mathlib.Logic.Relation

/-!
# What inclusion does

A library is a graph: a name leads to the names that its file includes. Expansion walks through this
graph with the names around it in a chain, and stops at the first name that cannot be read or is in
the chain already. This file says what comes of the walk in terms of the graph alone.

* `Piece.Divides`: what it means to find the directives in a text. `divides_iff`: `Piece.split` finds
  them.
* `Expands`: what pieces expand to, with no chain and no bound. `expand_eq_ok_iff`: expansion yields
  a text exactly if the pieces of the source expand to it.
* `Expands.good`: a source that expands leads only to names that can be read and lie on no cycle.
* `Trail`: how the walk has come to a file. An error is explained by its trail
  (`explains_of_expandAtFuel`), so an expansion that fails has reached a name that cannot be read or
  that lies on a cycle.
* `expand_exact`: when expansion succeeds, what it yields, and what its errors tell.
-/

namespace Duet

/-! ## Directives in a text -/

/-- The text is a directive that includes the name: the word, at least one blank, and the name in
quotes. -/
def IsDirective (name : String) (text : List Char) : Prop :=
  ∃ blanks : List Char, blanks ≠ [] ∧ (∀ c ∈ blanks, Text.isSpace c = true) ∧
    name.toList ≠ [] ∧ (∀ c ∈ name.toList, c ≠ '"') ∧
    text = "include".toList ++ blanks ++ '"' :: name.toList ++ ['"']

namespace Piece

/-- A word is taken from the front of a text exactly if the text begins with it. -/
theorem afterWord?_eq_some_iff {word text rest : List Char} :
    afterWord? word text = some rest ↔ text = word ++ rest := by
  fun_induction afterWord? word text with
  | case1 text => simp [eq_comm]
  | case2 w ws cs ih => simp [ih]
  | case3 w ws c cs hne => simp [hne]
  | case4 w ws => simp

/-- A name in quotes is read from a text exactly if the text begins with it; the name is not empty
and holds no quote. -/
theorem quoted?_eq_some_iff {text rest : List Char} {name : String} :
    quoted? text = some (name, rest) ↔ name.toList ≠ [] ∧ (∀ c ∈ name.toList, c ≠ '"') ∧
      text = '"' :: name.toList ++ '"' :: rest := by
  constructor
  · intro h
    unfold quoted? at h
    split at h
    · next c cs =>
      split at h
      · next hc =>
        split at h
        · cases h
        · next close tail hdrop =>
          simp only [Option.some.injEq, Prod.mk.injEq] at h
          obtain ⟨rfl, rfl⟩ := h
          have hclose : close = '"' := by
            have hfail := List.head?_dropWhile_not isNameChar cs
            rw [hdrop] at hfail
            simpa [isNameChar] using hfail
          have hcs := List.takeWhile_append_dropWhile (p := isNameChar) (l := cs)
          rw [hdrop, hclose] at hcs
          refine ⟨by simp, ?_, by simp [hcs]⟩
          intro x hx
          rw [String.toList_ofList] at hx
          rcases List.mem_cons.mp hx with rfl | hx
          · simpa [isNameChar] using hc
          · simpa [isNameChar] using List.mem_takeWhile_imp hx
      · cases h
    · cases h
  · rintro ⟨hne, hchars, rfl⟩
    obtain ⟨c, cs, hname⟩ := List.exists_cons_of_ne_nil hne
    have hc : isNameChar c = true := by
      simpa [isNameChar] using hchars c (by simp [hname])
    have hcs : ∀ x ∈ cs, isNameChar x = true := by
      intro x hx
      simpa [isNameChar] using hchars x (by simp [hname, hx])
    have hclose : ∀ x ∈ ('"' :: rest).head?, isNameChar x = false := by
      rintro _ ⟨⟩
      decide
    obtain ⟨htake, hdrop⟩ := Lexer.takeWhile_append_of_head? hcs hclose
    have hback : String.ofList (c :: cs) = name := by
      rw [← hname, String.ofList_toList]
    rw [hname]
    simp only [List.cons_append, quoted?, hc, if_pos, hdrop, htake, hback]

/-- The reader of directives finds one exactly where there is one. -/
theorem directive?_eq_some_iff {text rest : List Char} {name : String} :
    directive? text = some (name, rest) ↔ ∃ d, IsDirective name d ∧ text = d ++ rest := by
  constructor
  · intro h
    unfold directive? at h
    split at h
    · next c cs hword =>
      split at h
      · next hc =>
        obtain ⟨hne, hchars, hquoted⟩ := quoted?_eq_some_iff.mp h
        have hcs := List.takeWhile_append_dropWhile (p := Text.isSpace) (l := cs)
        refine ⟨_, ⟨c :: cs.takeWhile Text.isSpace, by simp, ?_, hne, hchars, rfl⟩, ?_⟩
        · intro x hx
          rcases List.mem_cons.mp hx with rfl | hx
          · exact hc
          · exact List.mem_takeWhile_imp hx
        · rw [hquoted] at hcs
          rw [afterWord?_eq_some_iff.mp hword]
          simpa using hcs.symm
      · cases h
    · cases h
  · rintro ⟨d, ⟨blanks, hne, hblanks, hname, hchars, rfl⟩, rfl⟩
    obtain ⟨c, cs, rfl⟩ := List.exists_cons_of_ne_nil hne
    have hword : afterWord? "include".toList
        ("include".toList ++ (c :: cs) ++ '"' :: name.toList ++ ['"'] ++ rest)
        = some (c :: (cs ++ '"' :: (name.toList ++ '"' :: rest))) := by
      rw [afterWord?_eq_some_iff]
      simp
    have hc : Text.isSpace c = true := hblanks c List.mem_cons_self
    have hcs : ∀ x ∈ cs, Text.isSpace x = true :=
      fun x hx => hblanks x (List.mem_cons_of_mem c hx)
    have hopen : ∀ x ∈ ('"' :: (name.toList ++ '"' :: rest)).head?, Text.isSpace x = false := by
      rintro _ ⟨⟩
      decide
    have hdrop := (Lexer.takeWhile_append_of_head? hcs hopen).2
    have hquoted : quoted? ('"' :: (name.toList ++ '"' :: rest)) = some (name, rest) :=
      quoted?_eq_some_iff.mpr ⟨hname, hchars, rfl⟩
    unfold directive?
    rw [hword]
    simp only [hc, if_pos, hdrop, hquoted]

/-- The pieces make up the text, and the directives among them are all that there are: reading from
the left, a directive starts wherever the text has one that does not continue a word. -/
inductive Divides : (inWord : Bool) → List Piece → List Char → Prop
  | nil {inWord : Bool} : Divides inWord [] []
  | directive {name : String} {d rest : List Char} {ps : List Piece} : IsDirective name d →
      Divides false ps rest → Divides false (.directive name :: ps) (d ++ rest)
  | char {inWord : Bool} {c : Char} {cs : List Char} {ps : List Piece} :
      (inWord = false → ∀ name d rest, IsDirective name d → c :: cs ≠ d ++ rest) →
      Divides (Text.isWord c) ps cs → Divides inWord (.char c :: ps) (c :: cs)

/-- An empty text has no pieces. -/
theorem split_nil (inWord : Bool) : split inWord [] = [] := by
  rw [split]
  split
  · next name rest h =>
    cases inWord with
    | true => simp at h
    | false => exact absurd (length_lt_of_directive? (by simpa using h)) (Nat.not_lt_zero _)
  · rfl

/-- A directive that does not continue a word is a piece, and no word is open behind it. -/
theorem split_of_directive {text rest : List Char} {name : String}
    (h : directive? text = some (name, rest)) :
    split false text = .directive name :: split false rest := by
  rw [split]
  split
  · next found left hfound =>
    rw [if_neg Bool.false_ne_true, h] at hfound
    obtain ⟨rfl, rfl⟩ := Prod.mk.inj (Option.some.inj hfound)
    rfl
  · next hnone =>
    rw [if_neg Bool.false_ne_true, h] at hnone
    cases hnone

/-- A character that begins no directive is a piece of its own. -/
theorem split_of_char {inWord : Bool} {c : Char} {cs : List Char}
    (h : inWord = false → directive? (c :: cs) = none) :
    split inWord (c :: cs) = .char c :: split (Text.isWord c) cs := by
  rw [split]
  split
  · next found left hfound =>
    cases inWord with
    | true => simp at hfound
    | false => simp [h rfl] at hfound
  · rfl

/-- No directive is read exactly if the text does not begin with one. -/
theorem directive?_eq_none_iff {text : List Char} :
    directive? text = none ↔ ∀ name d rest, IsDirective name d → text ≠ d ++ rest := by
  constructor
  · intro h name d rest hd heq
    have hsome := directive?_eq_some_iff.mpr ⟨d, hd, heq⟩
    rw [h] at hsome
    cases hsome
  · intro h
    cases hd : directive? text with
    | none => rfl
    | some found =>
      obtain ⟨name, rest⟩ := found
      obtain ⟨d, hdirective, heq⟩ := directive?_eq_some_iff.mp hd
      exact absurd heq (h name d rest hdirective)

/-- A text is divided into its pieces. -/
theorem divides_split (inWord : Bool) (text : List Char) : Divides inWord (split inWord text) text := by
  fun_induction split inWord text with
  | case1 inWord text name rest h ih =>
    cases inWord with
    | true => simp at h
    | false =>
      obtain ⟨d, hd, rfl⟩ := directive?_eq_some_iff.mp (by simpa using h)
      exact .directive hd ih
  | case2 inWord h => exact .nil
  | case3 inWord c cs h ih =>
    refine .char (fun hword => ?_) ih
    subst hword
    exact directive?_eq_none_iff.mp (by simpa using h)

/-- A text is divided in one way only, and it is found. -/
theorem divides_iff {inWord : Bool} {ps : List Piece} {text : List Char} :
    Divides inWord ps text ↔ ps = split inWord text := by
  refine ⟨fun h => ?_, fun h => h ▸ divides_split inWord text⟩
  induction h with
  | nil => exact (split_nil _).symm
  | directive hd _ ih => rw [split_of_directive (directive?_eq_some_iff.mpr ⟨_, hd, rfl⟩), ← ih]
  | char hnone _ ih => rw [split_of_char (fun hw => directive?_eq_none_iff.mpr (hnone hw)), ← ih]

/-- A character includes no name. -/
@[simp]
theorem filterMap_name?_char (c : Char) (ps : List Piece) :
    (.char c :: ps).filterMap name? = ps.filterMap name? :=
  List.filterMap_cons_none rfl

/-- A directive includes its name. -/
@[simp]
theorem filterMap_name?_directive (name : String) (ps : List Piece) :
    (.directive name :: ps).filterMap name? = name :: ps.filterMap name? :=
  List.filterMap_cons_some rfl

/-- What takes the place of a piece, when names stand for their expansions. -/
def fill (expansion : String → String) : Piece → List Char
  | .char c => [c]
  | .directive name => (expansion name).toList

end Piece

namespace Library

variable {l : Library} {source : List Char}

/-! ## The graph of names -/

/-- The file of the first name includes the second. -/
def Includes (l : Library) (name other : String) : Prop :=
  ∃ file, l.files.read (l.path name) = .ok file ∧ other ∈ includedNames file.toList

/-- The source includes the name, or includes a name that leads to it. -/
def Reaches (l : Library) (source : List Char) (name : String) : Prop :=
  ∃ first ∈ includedNames source, Relation.ReflTransGen l.Includes first name

/-- There is a file of that name. -/
def Readable (l : Library) (name : String) : Prop :=
  ∃ file, l.files.read (l.path name) = .ok file

/-- The name leads back to itself. -/
def OnCycle (l : Library) (name : String) : Prop :=
  Relation.TransGen l.Includes name name

/-- The names that a readable file includes are those in its text. -/
theorem mem_of_includes {name other file : String} (h : l.Includes name other)
    (hread : l.files.read (l.path name) = .ok file) : other ∈ includedNames file.toList := by
  obtain ⟨found, hfound, hother⟩ := h
  rw [hread] at hfound
  cases hfound
  exact hother

/-- A source reaches the names in its text. -/
theorem Reaches.of_mem {name : String} (h : name ∈ includedNames source) : l.Reaches source name :=
  ⟨name, h, .refl⟩

/-- A source reaches what a name that it reaches includes. -/
theorem Reaches.includes {name other : String} (h : l.Reaches source name)
    (hother : l.Includes name other) : l.Reaches source other := by
  obtain ⟨first, hfirst, hsteps⟩ := h
  exact ⟨first, hfirst, hsteps.tail hother⟩

/-! ## Expansion without a chain -/

/-- What pieces expand to: characters stay, and a directive is replaced by what its file expands
to. -/
inductive Expands (l : Library) : List Piece → List Char → Prop
  | nil : Expands l [] []
  | char {c : Char} {ps : List Piece} {t : List Char} : Expands l ps t →
      Expands l (.char c :: ps) (c :: t)
  | directive {name file : String} {ps : List Piece} {inner t : List Char} :
      l.files.read (l.path name) = .ok file → Expands l (pieces file.toList) inner →
      Expands l ps t → Expands l (.directive name :: ps) (inner ++ t)

/-- There is at most one text that pieces expand to. -/
theorem Expands.unique {ps : List Piece} {t t' : List Char} (h : l.Expands ps t)
    (h' : l.Expands ps t') : t = t' := by
  induction h generalizing t' with
  | nil =>
    cases h'
    rfl
  | char _ ih =>
    cases h' with
    | char hps => rw [ih hps]
  | directive hread _ _ ihfile ihps =>
    cases h' with
    | directive hread' hfile hps =>
      rw [hread] at hread'
      cases hread'
      rw [ihfile hfile, ihps hps]

/-- Where pieces expand, the file of each of their names does. -/
theorem Expands.of_mem {ps : List Piece} {t : List Char} (h : l.Expands ps t) {name : String}
    (hname : name ∈ ps.filterMap Piece.name?) :
    ∃ file inner, l.files.read (l.path name) = .ok file ∧
      l.Expands (pieces file.toList) inner := by
  induction h with
  | nil => cases hname
  | char _ ih => exact ih (by simpa using hname)
  | @directive found file _ inner _ hread hfile _ _ ih =>
    rw [Piece.filterMap_name?_directive] at hname
    rcases List.mem_cons.mp hname with rfl | hname
    · exact ⟨file, inner, hread, hfile⟩
    · exact ih hname

/-- Where a source expands, every file that it leads to does. -/
theorem Expands.of_reaches {t : List Char} (h : l.Expands (pieces source) t) {name : String}
    (hname : l.Reaches source name) :
    ∃ file inner, l.files.read (l.path name) = .ok file ∧
      l.Expands (pieces file.toList) inner := by
  obtain ⟨first, hfirst, hsteps⟩ := hname
  induction hsteps with
  | refl => exact h.of_mem hfirst
  | tail _ hnext ih =>
    obtain ⟨file, inner, hread, hfile⟩ := ih
    exact hfile.of_mem (mem_of_includes hnext hread)

/-- Whatever expands leads to no name that leads back to itself. -/
theorem Expands.not_onCycle {ps : List Piece} {t : List Char} (h : l.Expands ps t)
    {first name : String} (hfirst : first ∈ ps.filterMap Piece.name?)
    (hsteps : Relation.ReflTransGen l.Includes first name) : ¬l.OnCycle name := by
  induction h generalizing first name with
  | nil => cases hfirst
  | char _ ih => exact ih (by simpa using hfirst) hsteps
  | directive hread _ _ ihfile ihps =>
    rw [Piece.filterMap_name?_directive] at hfirst
    rcases List.mem_cons.mp hfirst with rfl | hfirst
    · intro hcycle
      -- Further on from the name, or once around its cycle, the way passes through its file.
      rcases hsteps.cases_head with rfl | ⟨next, hnext, hrest⟩
      · obtain ⟨next, hnext, hback⟩ := Relation.TransGen.head'_iff.mp hcycle
        exact ihfile (mem_of_includes hnext hread) hback hcycle
      · exact ihfile (mem_of_includes hnext hread) hrest hcycle
    · exact ihps hfirst hsteps

/-- What pieces expand to is their own characters, with each name filled in. -/
theorem Expands.eq_flatMap {expansion : String → String} {ps : List Piece} {t : List Char}
    (h : l.Expands ps t)
    (hexpansion : ∀ name file inner, l.files.read (l.path name) = .ok file →
      l.Expands (pieces file.toList) inner → expansion name = String.ofList inner) :
    t = ps.flatMap (Piece.fill expansion) := by
  induction h with
  | nil => rfl
  | char _ ih => rw [List.flatMap_cons, ← ih, Piece.fill, List.singleton_append]
  | directive hread hfile _ _ ih =>
    rw [List.flatMap_cons, ← ih, Piece.fill, hexpansion _ _ _ hread hfile, String.toList_ofList]

/-! ## Expansion of one name -/

/-- What a name expands to below the names of a chain. -/
def expandNameAtFuel (l : Library) (n : Nat) (chain : List String) (name : String) : Expansion :=
  if name ∈ chain then .error (.cycle (chain ++ [name]))
  else
    match l.files.read (l.path name) with
    | .error cause => .error (.missing name (l.path name) cause)
    | .ok text => l.expandAtFuel n (chain ++ [name]) text.toList

/-- With fuel left, a source is expanded piece by piece. -/
theorem expandAtFuel_succ (l : Library) (n : Nat) (chain : List String) (source : List Char) :
    l.expandAtFuel (n + 1) chain source
      = expandPieces (l.expandNameAtFuel n chain) (pieces source) :=
  rfl

/-- A name that expands has a readable file, which expands below it. -/
theorem expandNameAtFuel_eq_text {n : Nat} {chain : List String} {name : String}
    {inner : List Char} (h : l.expandNameAtFuel n chain name = .text inner) :
    ∃ file, l.files.read (l.path name) = .ok file ∧
      l.expandAtFuel n (chain ++ [name]) file.toList = .text inner := by
  unfold expandNameAtFuel at h
  split at h
  · cases h
  · split at h
    · cases h
    · next file hread => exact ⟨file, hread, h⟩

/-- A name fails because it is in the chain, because it cannot be read, or because its file
fails. -/
theorem expandNameAtFuel_eq_error {n : Nat} {chain : List String} {name : String}
    {e : IncludeError} (h : l.expandNameAtFuel n chain name = .error e) :
    (name ∈ chain ∧ e = .cycle (chain ++ [name])) ∨
    (∃ cause, l.files.read (l.path name) = .error cause ∧
      e = .missing name (l.path name) cause) ∨
    (name ∉ chain ∧ ∃ file, l.files.read (l.path name) = .ok file ∧
      l.expandAtFuel n (chain ++ [name]) file.toList = .error e) := by
  unfold expandNameAtFuel at h
  split at h
  · next hmem =>
    cases h
    exact .inl ⟨hmem, rfl⟩
  · next hnot =>
    split at h
    · next cause hread =>
      cases h
      exact .inr (.inl ⟨cause, hread, rfl⟩)
    · next file hread => exact .inr (.inr ⟨hnot, file, hread, h⟩)

/-- An expansion in two steps gives a text only if both steps do. -/
theorem andThen_eq_text {x : Expansion} {next : List Char → Expansion} {t : List Char}
    (h : x.andThen next = .text t) : ∃ s, x = .text s ∧ next s = .text t := by
  unfold Expansion.andThen at h
  split at h
  · next s => exact ⟨s, rfl, h⟩
  · cases h
  · cases h

/-- An expansion in two steps fails in the first step or in the second. -/
theorem andThen_eq_error {x : Expansion} {next : List Char → Expansion} {e : IncludeError}
    (h : x.andThen next = .error e) : x = .error e ∨ ∃ s, x = .text s ∧ next s = .error e := by
  unfold Expansion.andThen at h
  split at h
  · next s => exact .inr ⟨s, rfl, h⟩
  · exact .inl h
  · cases h

/-- Pieces that are expanded to a text expand to it, if this holds for the names in them. -/
theorem expands_of_expandPieces {expandName : String → Expansion} {ps : List Piece} {t : List Char}
    (hname : ∀ name inner, expandName name = .text inner →
      ∃ file, l.files.read (l.path name) = .ok file ∧ l.Expands (pieces file.toList) inner)
    (h : expandPieces expandName ps = .text t) : l.Expands ps t := by
  induction ps generalizing t with
  | nil =>
    cases h
    exact .nil
  | cons p ps ih =>
    cases p with
    | char c =>
      obtain ⟨s, hs, ht⟩ := andThen_eq_text h
      cases ht
      exact .char (ih hs)
    | directive name =>
      obtain ⟨inner, hinner, hrest⟩ := andThen_eq_text h
      obtain ⟨s, hs, ht⟩ := andThen_eq_text hrest
      cases ht
      obtain ⟨file, hread, hfile⟩ := hname name inner hinner
      exact .directive hread hfile (ih hs)

/-- Pieces fail as one of their names does. -/
theorem exists_of_expandPieces_eq_error {expandName : String → Expansion} {ps : List Piece}
    {e : IncludeError} (h : expandPieces expandName ps = .error e) :
    ∃ name ∈ ps.filterMap Piece.name?, expandName name = .error e := by
  induction ps with
  | nil => cases h
  | cons p ps ih =>
    cases p with
    | char c =>
      rcases andThen_eq_error h with hps | ⟨s, _, ht⟩
      · obtain ⟨name, hmem, hname⟩ := ih hps
        exact ⟨name, by simpa using hmem, hname⟩
      · cases ht
    | directive name =>
      rw [Piece.filterMap_name?_directive]
      rcases andThen_eq_error h with hname | ⟨inner, _, hrest⟩
      · exact ⟨name, List.mem_cons_self, hname⟩
      · rcases andThen_eq_error hrest with hps | ⟨s, _, ht⟩
        · obtain ⟨other, hmem, hother⟩ := ih hps
          exact ⟨other, List.mem_cons_of_mem _ hmem, hother⟩
        · cases ht

/-- The text that comes out does not depend on the bound or on the chain. -/
theorem expands_of_expandAtFuel {n : Nat} {chain : List String} {t : List Char}
    (h : l.expandAtFuel n chain source = .text t) : l.Expands (pieces source) t := by
  induction n generalizing chain source t with
  | zero => cases h
  | succ n ih =>
    rw [expandAtFuel_succ] at h
    refine expands_of_expandPieces (fun name inner hname => ?_) h
    obtain ⟨file, hread, hfile⟩ := expandNameAtFuel_eq_text hname
    exact ⟨file, hread, ih hfile⟩

/-! ## Errors -/

/-- How the walk from a source has come to a text: through the files of the chain, each included by
the one before it. -/
inductive Trail (l : Library) (source : List Char) : List String → List Char → Prop
  | start : Trail l source [] source
  | file {chain : List String} {text : List Char} {name file : String} :
      Trail l source chain text → name ∈ includedNames text → name ∉ chain →
      l.files.read (l.path name) = .ok file → Trail l source (chain ++ [name]) file.toList

/-- No name occurs twice on the way of a walk. -/
theorem Trail.nodup {chain : List String} {text : List Char} (h : l.Trail source chain text) :
    chain.Nodup := by
  induction h with
  | start => exact List.nodup_nil
  | file _ _ hnot _ ih =>
    rw [List.nodup_append]
    refine ⟨ih, by simp, ?_⟩
    intro a ha b hb hab
    rw [List.mem_singleton.mp hb] at hab
    exact hnot (hab ▸ ha)

/-- The source reaches the names included where its walk has come to. -/
theorem Trail.reaches {chain : List String} {text : List Char} {name : String}
    (h : l.Trail source chain text) (hname : name ∈ includedNames text) :
    l.Reaches source name := by
  induction h generalizing name with
  | start => exact .of_mem hname
  | file _ hmem _ hread ih => exact (ih hmem).includes ⟨_, hread, hname⟩

/-- A trail, with a name that its text includes, is a route through the graph. -/
theorem Trail.isChain {chain : List String} {text : List Char} {name : String}
    (h : l.Trail source chain text) (hname : name ∈ includedNames text) :
    (chain ++ [name]).IsChain l.Includes := by
  induction h generalizing name with
  | start => exact List.isChain_singleton name
  | file _ hmem _ hread ih =>
    refine List.isChain_append.mpr ⟨ih hmem, List.isChain_singleton name, ?_⟩
    intro x hx y hy
    rw [List.getLast?_concat, Option.mem_some_iff] at hx
    rw [List.head?_singleton, Option.mem_some_iff] at hy
    subst hx hy
    exact ⟨_, hread, hname⟩

/-- The way of a walk begins with a name that the source includes. -/
theorem Trail.head_mem {chain : List String} {text : List Char} {name : String}
    (h : l.Trail source chain text) (hname : name ∈ includedNames text) :
    ∃ first ∈ includedNames source, (chain ++ [name]).head? = some first := by
  induction h generalizing name with
  | start => exact ⟨name, hname, rfl⟩
  | file _ hmem _ _ ih =>
    obtain ⟨first, hfirst, hhead⟩ := ih hmem
    exact ⟨first, hfirst, by rw [List.head?_append, hhead, Option.some_or]⟩

/-- The chain runs from the source into a cycle and ends where it closes. -/
structure ClosesCycle (l : Library) (source : List Char) (chain : List String) : Prop where
  /-- The first name is included by the source. -/
  first : ∃ name ∈ includedNames source, chain.head? = some name
  /-- Each later name is included by the file of the name before it. -/
  includes : chain.IsChain l.Includes
  /-- All names but the last are distinct. -/
  distinct : chain.dropLast.Nodup
  /-- The last name is one of those before it. -/
  closes : ∃ name ∈ chain.dropLast, chain.getLast? = some name

/-- What an error says about the graph. -/
def Explains (l : Library) (source : List Char) : IncludeError → Prop
  | .missing name path cause =>
    l.Reaches source name ∧ path = l.path name ∧ l.files.read path = .error cause
  | .cycle chain => l.ClosesCycle source chain

/-- A name that is included where it is open already closes a cycle. -/
theorem Trail.closesCycle {chain : List String} {text : List Char} {name : String}
    (h : l.Trail source chain text) (hname : name ∈ includedNames text) (hmem : name ∈ chain) :
    l.ClosesCycle source (chain ++ [name]) where
  first := h.head_mem hname
  includes := h.isChain hname
  distinct := by
    rw [List.dropLast_concat]
    exact h.nodup
  closes := ⟨name, by rwa [List.dropLast_concat], List.getLast?_concat⟩

/-- An error is true of the graph: the walk has come to it on a trail. -/
theorem explains_of_expandAtFuel {n : Nat} {chain : List String} {text : List Char}
    {e : IncludeError} (htrail : l.Trail source chain text)
    (h : l.expandAtFuel n chain text = .error e) : l.Explains source e := by
  induction n generalizing chain text with
  | zero => cases h
  | succ n ih =>
    rw [expandAtFuel_succ] at h
    obtain ⟨name, hmem, hname⟩ := exists_of_expandPieces_eq_error h
    rcases expandNameAtFuel_eq_error hname with
      ⟨hchain, rfl⟩ | ⟨cause, hread, rfl⟩ | ⟨hnot, file, hread, hfile⟩
    · exact htrail.closesCycle hmem hchain
    · exact ⟨htrail.reaches hmem, rfl, hread⟩
    · exact ih (htrail.file hmem hnot hread) hfile

/-- From a name, along a route and back to it. -/
theorem onCycle_of_isChain {name : String} {between : List String}
    (h : (name :: (between ++ [name])).IsChain l.Includes) : l.OnCycle name := by
  obtain ⟨next, rest, hsplit⟩ : ∃ next rest, between ++ [name] = next :: rest :=
    List.exists_cons_of_ne_nil (by simp)
  rw [hsplit, List.isChain_cons_cons] at h
  have hlast : (next :: rest).getLast (List.cons_ne_nil next rest) = name := by
    simp [← hsplit]
  exact .head' h.1 (List.relationReflTransGen_of_exists_isChain_cons rest h.2 hlast)

/-- A chain that closes a cycle leads to a name on one. -/
theorem ClosesCycle.exists_onCycle {chain : List String} (h : l.ClosesCycle source chain) :
    ∃ name, l.Reaches source name ∧ l.OnCycle name := by
  obtain ⟨name, hmem, hlast⟩ := h.closes
  obtain ⟨first, hfirst, hhead⟩ := h.first
  have hchain : chain = chain.dropLast ++ [name] :=
    (List.dropLast_append_getLast? name hlast).symm
  obtain ⟨before, between, hsplit⟩ := List.append_of_mem hmem
  refine ⟨name, ⟨first, hfirst, ?_⟩, ?_⟩
  · obtain ⟨rest, hrest⟩ := List.head?_eq_some_iff.mp hhead
    have hroute := h.includes
    simp only [hrest] at hroute hlast
    exact List.relationReflTransGen_of_exists_isChain_cons rest hroute
      (by simpa [List.getLast?_eq_some_getLast] using hlast)
  · have hroute := h.includes
    rw [hchain, hsplit, List.append_assoc] at hroute
    exact onCycle_of_isChain (List.isChain_append.mp hroute).2.1

/-- An error comes only of a name that cannot be read or lies on a cycle. -/
theorem Explains.exists_bad {e : IncludeError} (h : l.Explains source e) :
    ∃ name, l.Reaches source name ∧ ¬(l.Readable name ∧ ¬l.OnCycle name) := by
  cases e with
  | missing name path cause =>
    obtain ⟨hreaches, rfl, hread⟩ := h
    refine ⟨name, hreaches, fun hgood => ?_⟩
    obtain ⟨file, hfile⟩ := hgood.1
    rw [hread] at hfile
    cases hfile
  | cycle chain =>
    obtain ⟨name, hreaches, hcycle⟩ := ClosesCycle.exists_onCycle h
    exact ⟨name, hreaches, fun hgood => hgood.2 hcycle⟩

/-! ## The outcome -/

/-- Expansion ends in a text that the pieces expand to, or in an error that is explained. -/
theorem expand_cases (l : Library) (source : String) :
    (∃ t, l.expand source = .ok (String.ofList t) ∧ l.Expands (pieces source.toList) t) ∨
    (∃ e, l.expand source = .error e ∧ l.Explains source.toList e) := by
  unfold expand
  split
  · next t h => exact .inl ⟨t, rfl, expands_of_expandAtFuel h⟩
  · next e h => exact .inr ⟨e, rfl, explains_of_expandAtFuel .start h⟩
  · next h => exact absurd h (l.expandAtFuel_names_ne_outOfFuel source.toList)

/-- Where a source expands, every name that it leads to can be read and lies on no cycle. -/
theorem Expands.good {source t : List Char} (h : l.Expands (pieces source) t) (name : String)
    (hname : l.Reaches source name) : l.Readable name ∧ ¬l.OnCycle name := by
  obtain ⟨file, _, hread, _⟩ := h.of_reaches hname
  obtain ⟨first, hfirst, hsteps⟩ := hname
  exact ⟨⟨file, hread⟩, h.not_onCycle hfirst hsteps⟩

/-- A source is expanded to a text exactly if its pieces expand to it. -/
theorem expand_eq_ok_iff {source : String} {t : List Char} :
    l.expand source = .ok (String.ofList t) ↔ l.Expands (pieces source.toList) t := by
  rcases l.expand_cases source with ⟨s, hs, hexpands⟩ | ⟨e, he, hexplains⟩
  · rw [hs]
    constructor
    · intro h
      rw [← String.ofList_injective (Except.ok.inj h)]
      exact hexpands
    · intro h
      rw [hexpands.unique h]
  · rw [he]
    constructor
    · intro h
      cases h
    · intro h
      obtain ⟨name, hreaches, hbad⟩ := hexplains.exists_bad
      exact absurd (h.good name hreaches) hbad

/-- What the file of a name expands to, where it does. -/
def expansionOf (l : Library) (name : String) : String :=
  match l.files.read (l.path name) with
  | .error _ => ""
  | .ok file => (l.expand file).toOption.getD ""

/-- A name stands for what its file expands to. -/
theorem expansionOf_eq {name file : String} {inner : List Char}
    (hread : l.files.read (l.path name) = .ok file) (hfile : l.Expands (pieces file.toList) inner) :
    l.expansionOf name = String.ofList inner := by
  unfold expansionOf
  rw [hread]
  simp only [expand_eq_ok_iff.mpr hfile, Except.toOption, Option.getD_some]

/-- **Inclusion is exact.** The directives of a source are found in its text without comments, in
the one way there is. Expansion succeeds exactly if every name that the source leads to can be read
and lies on no cycle. The text is then the source with each directive replaced by what its file
expands to on its own, wherever it is included. An error names a way through the graph to what is
wrong: a name that cannot be read, or a cycle, written down to the name that closes it. -/
theorem expand_exact (l : Library) (source : String) :
    (∀ ps, Piece.Divides false ps (Comment.strip source.toList) ↔ ps = pieces source.toList) ∧
    ((∃ text, l.expand source = .ok text) ↔
      ∀ name, l.Reaches source.toList name → l.Readable name ∧ ¬l.OnCycle name) ∧
    (∀ text, l.expand source = .ok text → ∃ expansion : String → String,
      (∀ name, l.Reaches source.toList name → ∃ file,
        l.files.read (l.path name) = .ok file ∧ l.expand file = .ok (expansion name)) ∧
      text.toList = (pieces source.toList).flatMap (Piece.fill expansion)) ∧
    (∀ name path cause, l.expand source = .error (.missing name path cause) →
      l.Reaches source.toList name ∧ path = l.path name ∧ l.files.read path = .error cause) ∧
    (∀ chain, l.expand source = .error (.cycle chain) → l.ClosesCycle source.toList chain) := by
  have hexplains : ∀ e, l.expand source = .error e → l.Explains source.toList e := by
    intro e he
    rcases l.expand_cases source with ⟨t, ht, _⟩ | ⟨e', he', hexplains⟩
    · rw [ht] at he
      cases he
    · rw [he'] at he
      cases he
      exact hexplains
  have hexpands : ∀ text, l.expand source = .ok text →
      l.Expands (pieces source.toList) text.toList := by
    intro text htext
    refine expand_eq_ok_iff.mp ?_
    rwa [String.ofList_toList]
  refine ⟨fun ps => Piece.divides_iff, ⟨?_, ?_⟩, ?_, ?_, ?_⟩
  · rintro ⟨text, htext⟩
    exact (hexpands text htext).good
  · intro hgood
    -- an expansion without a text has an error, and each error names a name that is no good
    rcases l.expand_cases source with ⟨t, ht, _⟩ | ⟨e, _, hexplained⟩
    · exact ⟨_, ht⟩
    · obtain ⟨name, hreaches, hbad⟩ := hexplained.exists_bad
      exact absurd (hgood name hreaches) hbad
  · intro text htext
    have hsource := hexpands text htext
    refine ⟨l.expansionOf, ?_, hsource.eq_flatMap fun name file inner => expansionOf_eq⟩
    intro name hname
    obtain ⟨file, inner, hread, hfile⟩ := hsource.of_reaches hname
    refine ⟨file, hread, ?_⟩
    rw [expansionOf_eq hread hfile]
    exact expand_eq_ok_iff.mpr hfile
  · intro name path cause h
    exact hexplains _ h
  · intro chain h
    exact hexplains _ h

/-- A file that includes another one twice, and two files that include each other. -/
def sharedAndCyclic : Library where
  files := .ofList
    [("lib/twice", .ok "include \"once\" include \"once\""), ("lib/once", .ok "x"),
      ("lib/there", .ok "/* and */ include \"back\""), ("lib/back", .ok "include \"there\"")]
  directory := "lib"

/-- To include a file twice is no cycle. A cycle that is met after it is written out from its own
start, without the files that were left again before. -/
theorem expand_exact_sharedAndCyclic :
    (sharedAndCyclic.expand "include \"twice\"" = .ok "x x" ∧
      ∀ name, sharedAndCyclic.Reaches "include \"twice\"".toList name →
        sharedAndCyclic.Readable name ∧ ¬sharedAndCyclic.OnCycle name) ∧
    (sharedAndCyclic.expand "include \"twice\" include \"there\""
        = .error (.cycle ["there", "back", "there"]) ∧
      sharedAndCyclic.ClosesCycle "include \"twice\" include \"there\"".toList
        ["there", "back", "there"]) := by
  have htwice : sharedAndCyclic.expand "include \"twice\"" = .ok "x x" := by decide +kernel
  have hcycle : sharedAndCyclic.expand "include \"twice\" include \"there\""
      = .error (.cycle ["there", "back", "there"]) := by decide +kernel
  obtain ⟨-, hgood, -⟩ := sharedAndCyclic.expand_exact "include \"twice\""
  obtain ⟨-, -, -, -, hcloses⟩ :=
    sharedAndCyclic.expand_exact "include \"twice\" include \"there\""
  exact ⟨⟨htwice, hgood.mp ⟨_, htwice⟩⟩, hcycle, hcloses _ hcycle⟩

end Library

end Duet
