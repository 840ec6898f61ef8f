import Duet.Files.Basic
import Duet.Text.Comment
import Duet.Text.Word

/-!
# Inclusion of library files

Before a source is read as tokens, its comments are removed and each directive
`include "name"` is replaced by the expansion of the file of that name in the library
directory. A directive is the word `include`, white space, and a name in quotes that is not
empty; it may stand anywhere, also inside another text.

A name that is being expanded must not be included again. The check compares names and not
files, so the depth of inclusion is bounded by the number of different names that occur in the
source and in the files. `expandAtFuel` has a bound on the depth, `expandAtFuel_ne_outOfFuel`
says that this number of names, plus one for the source, is enough, and `expand` uses it.
-/

namespace Duet

/-- Why a source cannot be expanded. -/
inductive IncludeError where
  /-- The file of a name cannot be read. -/
  | missing (name path : String) (cause : ReadError)
  /-- Names that include each other, down to one that is already there. -/
  | cycle (chain : List String)
deriving DecidableEq, Repr

namespace IncludeError

/-- The catalogue code of an error. -/
def code : IncludeError → String
  | .missing .. => "MAL-I001"
  | .cycle _ => "MAL-I002"

/-- The text of an error. -/
def message : IncludeError → String
  | .missing name path cause =>
    "cannot include \"" ++ name ++ "\": " ++ path ++ " could not be read: " ++ cause.message
  | .cycle chain => "include cycle: " ++ " -> ".intercalate chain

end IncludeError

/-- A part of a text: a character, or a directive to include a name. -/
inductive Piece where
  | char (c : Char)
  | directive (name : String)
deriving DecidableEq, Repr

namespace Piece

/-- What follows `word` at the front of a text. -/
def afterWord? : (word text : List Char) → Option (List Char)
  | [], text => some text
  | w :: ws, c :: cs => if c = w then afterWord? ws cs else none
  | _ :: _, [] => none

/-- The characters of a name in quotes. -/
def isNameChar (c : Char) : Bool :=
  c ≠ '"'

/-- The name in quotes at the front of a text, if it is not empty, and what follows it. -/
def quoted? : List Char → Option (String × List Char)
  | '"' :: c :: cs =>
    if isNameChar c then
      match cs.dropWhile isNameChar with
      | [] => none
      | _ :: rest => some (String.ofList (c :: cs.takeWhile isNameChar), rest)
    else none
  | _ => none

/-- The directive at the front of a text that does not continue a word. -/
def directive? (text : List Char) : Option (String × List Char) :=
  match afterWord? "include".toList text with
  | some (c :: cs) => if Text.isSpace c then quoted? (cs.dropWhile Text.isSpace) else none
  | _ => none

/-- What follows a word is shorter by that word. -/
theorem length_of_afterWord? {word text rest : List Char} (h : afterWord? word text = some rest) :
    rest.length + word.length = text.length := by
  fun_induction afterWord? word text with
  | case1 => simp_all
  | case2 w ws cs ih =>
    have := ih h
    simp
    omega
  | case3 => simp at h
  | case4 => simp at h

/-- What follows a name in quotes is shorter. -/
theorem length_lt_of_quoted? {text rest : List Char} {name : String}
    (h : quoted? text = some (name, rest)) : rest.length < text.length := by
  unfold quoted? at h
  split at h
  · rename_i c cs
    split at h
    · split at h
      · simp at h
      · rename_i close tail hd
        have hle := (List.dropWhile_sublist (l := cs) isNameChar).length_le
        rw [hd] at hle
        simp only [Option.some.injEq, Prod.mk.injEq] at h
        obtain ⟨-, rfl⟩ := h
        simp at hle ⊢
        omega
    · simp at h
  · simp at h

/-- What follows a directive is shorter. -/
theorem length_lt_of_directive? {text rest : List Char} {name : String}
    (h : directive? text = some (name, rest)) : rest.length < text.length := by
  unfold directive? at h
  split at h
  · rename_i c cs hw
    split at h
    · have h1 := length_of_afterWord? hw
      have h2 := length_lt_of_quoted? h
      have h3 := (List.dropWhile_sublist (l := cs) Text.isSpace).length_le
      simp at h1
      omega
    · simp at h
  · simp at h

/-- The pieces of a text; `inWord` says whether the character before it is a word character, in
which case no directive can start here. -/
def split (inWord : Bool) (text : List Char) : List Piece :=
  match _h : if inWord then none else directive? text with
  | some (name, rest) => .directive name :: split false rest
  | none =>
    match text with
    | [] => []
    | c :: cs => .char c :: split (Text.isWord c) cs
termination_by text.length
decreasing_by
  · cases inWord with
    | true => simp at _h
    | false => exact length_lt_of_directive? (by simpa using _h)
  · simp

/-- The name that a piece includes. -/
def name? : Piece → Option String
  | .char _ => none
  | .directive name => some name

end Piece

/-- The pieces of a source without its comments. -/
def pieces (source : List Char) : List Piece :=
  Piece.split false (Comment.strip source)

/-- The names that a source includes. -/
def includedNames (source : List Char) : List String :=
  (pieces source).filterMap Piece.name?

/-- A directory of files to include. -/
structure Library where
  files : Files
  directory : String

namespace Library

/-- The path of the file with the given name. -/
def path (l : Library) (name : String) : String :=
  joinPath l.directory name

/-- The outcome of an expansion. -/
inductive Expansion where
  | text (text : List Char)
  | error (e : IncludeError)
  /-- Inclusion went deeper than the bound. -/
  | outOfFuel
deriving DecidableEq, Repr

/-- Goes on with the text of a successful expansion. -/
def Expansion.andThen (x : Expansion) (next : List Char → Expansion) : Expansion :=
  match x with
  | .text t => next t
  | .error e => .error e
  | .outOfFuel => .outOfFuel

/-- Expands pieces from left to right, given the expansion of each name. -/
def expandPieces (expandName : String → Expansion) : List Piece → Expansion
  | [] => .text []
  | .char c :: ps => (expandPieces expandName ps).andThen fun t => .text (c :: t)
  | .directive name :: ps =>
    (expandName name).andThen fun inner =>
      (expandPieces expandName ps).andThen fun t => .text (inner ++ t)

/-- Expands a source with inclusions nested to a bounded depth. The chain holds the names that
are being expanded around it, the outermost first. -/
def expandAtFuel (l : Library) : Nat → (chain : List String) → (source : List Char) → Expansion
  | 0, _, _ => .outOfFuel
  | n + 1, chain, source =>
    expandPieces (fun name =>
      if name ∈ chain then .error (.cycle (chain ++ [name]))
      else
        match l.files.read (l.path name) with
        | .error cause => .error (.missing name (l.path name) cause)
        | .ok text => expandAtFuel l n (chain ++ [name]) text.toList)
      (pieces source)

/-- The names that occur in a source or in any file. -/
def names (l : Library) (source : List Char) : List String :=
  (includedNames source ++ l.files.texts.flatMap (includedNames ·.toList)).eraseDups

/-- Pieces run out of fuel only if one of their names does. -/
theorem expandPieces_ne_outOfFuel {expandName : String → Expansion} {ps : List Piece}
    (h : ∀ name ∈ ps.filterMap Piece.name?, expandName name ≠ .outOfFuel) :
    expandPieces expandName ps ≠ .outOfFuel := by
  induction ps with
  | nil => simp [expandPieces]
  | cons p ps ih =>
    cases p with
    | char c =>
      have hps := ih (by intro name hn; exact h name (by simpa [Piece.name?] using hn))
      simp only [expandPieces, Expansion.andThen]
      split <;> simp_all
    | directive name =>
      have hname := h name (by simp [Piece.name?])
      have hps := ih (by
        intro other hn
        refine h other ?_
        rw [List.filterMap_cons]
        simp only [Piece.name?]
        exact List.mem_cons_of_mem _ hn)
      simp only [expandPieces, Expansion.andThen]
      split
      · split <;> simp_all
      · simp
      · contradiction

/-- Fuel that exceeds the number of names not yet in the chain is enough. -/
theorem expandAtFuel_ne_outOfFuel (l : Library) (known : List String)
    (hfiles : ∀ text ∈ l.files.texts, includedNames text.toList ⊆ known) (n : Nat)
    (chain : List String) (source : List Char) (hsource : includedNames source ⊆ known)
    (hchain : chain ⊆ known) (hnodup : chain.Nodup) (hfuel : known.length < chain.length + n) :
    l.expandAtFuel n chain source ≠ .outOfFuel := by
  induction n generalizing chain source with
  | zero =>
    have := hnodup.length_le_of_subset hchain
    omega
  | succ n ih =>
    refine expandPieces_ne_outOfFuel ?_
    intro name hname
    split
    · simp
    · rename_i hnot
      split
      · simp
      · rename_i text hread
        refine ih (chain ++ [name]) text.toList (hfiles text (l.files.mem_texts _ _ hread)) ?_ ?_ ?_
        · intro x hx
          rcases List.mem_append.mp hx with hx | hx
          · exact hchain hx
          · rw [List.mem_singleton.mp hx]
            exact hsource hname
        · rw [List.nodup_append]
          refine ⟨hnodup, by simp, ?_⟩
          intro a ha b hb hab
          rw [List.mem_singleton.mp hb] at hab
          exact hnot (hab ▸ ha)
        · simp
          omega

/-- The number of names bounds the depth of inclusion. -/
theorem expandAtFuel_names_ne_outOfFuel (l : Library) (source : List Char) :
    l.expandAtFuel ((l.names source).length + 1) [] source ≠ .outOfFuel := by
  refine l.expandAtFuel_ne_outOfFuel (l.names source) ?_ _ _ _ ?_ (by simp) (by simp) (by simp)
  · intro text htext x hx
    simp only [names, List.mem_eraseDups, List.mem_append, List.mem_flatMap]
    exact .inr ⟨text, htext, hx⟩
  · intro x hx
    simp only [names, List.mem_eraseDups, List.mem_append]
    exact .inl hx

/-- Expands a source: removes comments and replaces each directive by the expansion of its
file. -/
def expand (l : Library) (source : String) : Except IncludeError String :=
  match h : l.expandAtFuel ((l.names source.toList).length + 1) [] source.toList with
  | .text t => .ok (String.ofList t)
  | .error e => .error e
  | .outOfFuel => absurd h (l.expandAtFuel_names_ne_outOfFuel source.toList)

end Library

end Duet
