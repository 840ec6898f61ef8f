import Duet.Proofs.InclusionGraph
import Mathlib.Data.Set.Card

/-!
# Inclusion ends

Expansion goes from file to file for as long as there is a name to include that is not in the chain.
The chain holds names and not files, so one file can be entered again under another spelling of its
path, and neither the number of files nor the length of texts bounds the walk. What does is the
number of names: each level of nesting adds one to the chain that was not there.

* `Walks`: a walk from its start to its end, without a bound, with its outcome and its depth.
* `Walks.expandPieces_eq`: what a bound does to a walk. Too small a bound is noticed, and any other
  has no effect.
* `Walks.exists_trail`: a walk is as deep as one of its trails is long, and `Trail.length_le` says
  how long that can be.
* `expand_terminates`: every source has a walk, and just one.
-/

namespace Duet.Library

variable {l : Library} {source : List Char}

/-! ## Walks without a bound -/

/-- How the expansion of some pieces goes below the names of a chain: what comes of it, and how many
files are open at once, one inside the other, where it is deepest. Pieces are taken from left to right
up to the first error. -/
inductive Walks (l : Library) :
    (chain : List String) → List Piece → Except IncludeError (List Char) → (depth : Nat) → Prop
  | nil {chain : List String} : Walks l chain [] (.ok []) 0
  | char {chain : List String} {c : Char} {ps : List Piece}
      {outcome : Except IncludeError (List Char)} {depth : Nat} :
      Walks l chain ps outcome depth →
      Walks l chain (.char c :: ps) (outcome.map (c :: ·)) depth
  | cycle {chain : List String} {name : String} {ps : List Piece} : name ∈ chain →
      Walks l chain (.directive name :: ps) (.error (.cycle (chain ++ [name]))) 0
  | missing {chain : List String} {name : String} {cause : ReadError} {ps : List Piece} :
      name ∉ chain → l.files.read (l.path name) = .error cause →
      Walks l chain (.directive name :: ps) (.error (.missing name (l.path name) cause)) 0
  | fails {chain : List String} {name file : String} {e : IncludeError} {depth : Nat}
      {ps : List Piece} : name ∉ chain → l.files.read (l.path name) = .ok file →
      Walks l (chain ++ [name]) (pieces file.toList) (.error e) depth →
      Walks l chain (.directive name :: ps) (.error e) (depth + 1)
  | file {chain : List String} {name file : String} {inner : List Char} {depth depth' : Nat}
      {ps : List Piece} {outcome : Except IncludeError (List Char)} : name ∉ chain →
      l.files.read (l.path name) = .ok file →
      Walks l (chain ++ [name]) (pieces file.toList) (.ok inner) depth →
      Walks l chain ps outcome depth' →
      Walks l chain (.directive name :: ps) (outcome.map (inner ++ ·)) (max (depth + 1) depth')

/-- What comes of an expansion that has not met its bound. -/
def Expansion.ofExcept : Except IncludeError (List Char) → Expansion
  | .ok t => .text t
  | .error e => .error e

/-- An expansion that has not met its bound is not out of fuel. -/
theorem Expansion.ofExcept_ne_outOfFuel (outcome : Except IncludeError (List Char)) :
    ofExcept outcome ≠ .outOfFuel := by
  cases outcome <;> exact nofun

/-- The expansion determines what comes of it. -/
theorem Expansion.ofExcept_injective : Function.Injective ofExcept := by
  intro a b h
  cases a <;> cases b <;> cases h <;> rfl

/-- A text that goes on as a text is that text, or the error that came before it. -/
theorem Expansion.andThen_ofExcept (outcome : Except IncludeError (List Char))
    (f : List Char → List Char) :
    (ofExcept outcome).andThen (fun t => .text (f t)) = ofExcept (outcome.map f) := by
  cases outcome <;> rfl

/-- A name spends one unit of the bound on its file. -/
theorem expandNameAtFuel_of_file {chain : List String} {name file : String}
    {outcome : Except IncludeError (List Char)} {depth : Nat} (hnot : name ∉ chain)
    (hread : l.files.read (l.path name) = .ok file)
    (hfile : ∀ n, expandPieces (l.expandNameAtFuel n (chain ++ [name])) (pieces file.toList) =
      if n < depth then .outOfFuel else .ofExcept outcome) (n : Nat) :
    l.expandNameAtFuel n chain name =
      if n < depth + 1 then .outOfFuel else .ofExcept outcome := by
  simp only [expandNameAtFuel, if_neg hnot, hread]
  cases n with
  | zero => rw [if_pos (Nat.succ_pos depth), expandAtFuel]
  | succ n =>
    rw [expandAtFuel_succ, hfile n]
    simp only [Nat.add_lt_add_iff_right]

/-- A walk with a bound goes as the walk does, unless the bound is smaller than its depth. -/
theorem Walks.expandPieces_eq {chain : List String} {ps : List Piece}
    {outcome : Except IncludeError (List Char)} {depth : Nat} (h : l.Walks chain ps outcome depth)
    (n : Nat) :
    expandPieces (l.expandNameAtFuel n chain) ps =
      if n < depth then .outOfFuel else .ofExcept outcome := by
  induction h generalizing n with
  | nil => rfl
  | char _ ih =>
    rw [expandPieces, ih n]
    split
    · rfl
    · exact Expansion.andThen_ofExcept _ _
  | cycle hmem =>
    rw [expandPieces, expandNameAtFuel, if_pos hmem]
    rfl
  | missing hnot hread =>
    simp only [expandPieces, expandNameAtFuel, if_neg hnot, hread]
    rfl
  | fails hnot hread _ ih =>
    rw [expandPieces, expandNameAtFuel_of_file hnot hread ih n]
    split <;> rfl
  | @file _ _ _ inner depth depth' _ outcome hnot hread _ _ ih ih' =>
    rw [expandPieces, expandNameAtFuel_of_file hnot hread ih n, ih' n]
    -- the bound is met inside the file, or behind it, or not at all
    by_cases hinner : n < depth + 1
    · rw [if_pos hinner, if_pos (Nat.lt_of_lt_of_le hinner (Nat.le_max_left _ _))]
      rfl
    rw [if_neg hinner]
    by_cases hrest : n < depth'
    · rw [if_pos hrest, if_pos (Nat.lt_of_lt_of_le hrest (Nat.le_max_right _ _))]
      rfl
    · have hmax : ¬n < max (depth + 1) depth' := by omega
      rw [if_neg hrest, if_neg hmax]
      exact Expansion.andThen_ofExcept outcome (inner ++ ·)

/-- A walk of the given depth needs more fuel than its depth, and with it comes out as the walk
says. -/
theorem Walks.expandAtFuel_eq {chain : List String} {outcome : Except IncludeError (List Char)}
    {depth : Nat} (h : l.Walks chain (pieces source) outcome depth) (n : Nat) :
    l.expandAtFuel n chain source = if n ≤ depth then .outOfFuel else .ofExcept outcome := by
  cases n with
  | zero => rw [if_pos (Nat.zero_le depth), expandAtFuel]
  | succ n =>
    rw [expandAtFuel_succ, h.expandPieces_eq n]
    simp only [Nat.succ_le_iff]

/-- There is one walk at most. -/
theorem Walks.unique {chain : List String} {ps : List Piece}
    {outcome outcome' : Except IncludeError (List Char)} {depth depth' : Nat}
    (h : l.Walks chain ps outcome depth) (h' : l.Walks chain ps outcome' depth') :
    outcome = outcome' ∧ depth = depth' := by
  have hboth (n : Nat) := (h.expandPieces_eq n).symm.trans (h'.expandPieces_eq n)
  -- A bound between two depths would be too small for one walk only.
  have hle {r r' : Except IncludeError (List Char)} {d d' : Nat}
      (heq : ∀ n, (if n < d then Expansion.outOfFuel else .ofExcept r) =
        if n < d' then .outOfFuel else .ofExcept r') : d ≤ d' := by
    by_contra hlt
    have hd' := heq d'
    rw [if_pos (Nat.lt_of_not_le hlt), if_neg (Nat.lt_irrefl d')] at hd'
    exact Expansion.ofExcept_ne_outOfFuel _ hd'.symm
  have hdepth : depth = depth' :=
    Nat.le_antisymm (hle hboth) (hle fun n => (hboth n).symm)
  subst hdepth
  have hsame := hboth depth
  rw [if_neg (Nat.lt_irrefl depth), if_neg (Nat.lt_irrefl depth)] at hsame
  exact ⟨Expansion.ofExcept_injective hsame, rfl⟩

/-! ## Every walk ends -/

/-- Pieces have a walk if the files of their names have one. -/
theorem exists_walks_of_names {chain : List String} {ps : List Piece}
    (hfiles : ∀ name ∈ ps.filterMap Piece.name?, name ∉ chain →
      ∀ file, l.files.read (l.path name) = .ok file →
        ∃ outcome depth, l.Walks (chain ++ [name]) (pieces file.toList) outcome depth) :
    ∃ outcome depth, l.Walks chain ps outcome depth := by
  induction ps with
  | nil => exact ⟨_, _, .nil⟩
  | cons p ps ih =>
    cases p with
    | char c =>
      rw [Piece.filterMap_name?_char] at hfiles
      obtain ⟨outcome, depth, hrest⟩ := ih hfiles
      exact ⟨_, _, .char hrest⟩
    | directive name =>
      rw [Piece.filterMap_name?_directive] at hfiles
      obtain ⟨hname, hothers⟩ := List.forall_mem_cons.mp hfiles
      by_cases hmem : name ∈ chain
      · exact ⟨_, _, .cycle hmem⟩
      cases hread : l.files.read (l.path name) with
      | error cause => exact ⟨_, _, .missing hmem hread⟩
      | ok file =>
        obtain ⟨outcome, depth, hfile⟩ := hname hmem file hread
        cases outcome with
        | error e => exact ⟨_, _, .fails hmem hread hfile⟩
        | ok inner =>
          obtain ⟨outcome, depth', hrest⟩ := ih hothers
          exact ⟨_, _, .file hmem hread hfile hrest⟩

/-- The name is included by the source or by a file that can be read. -/
def Occurs (l : Library) (source : List Char) (name : String) : Prop :=
  name ∈ includedNames source ∨
    ∃ path file, l.files.read path = .ok file ∧ name ∈ includedNames file.toList

/-- Finitely many names occur, since there are finitely many texts to read. -/
theorem finite_occurs (l : Library) (source : List Char) : {name | l.Occurs source name}.Finite := by
  refine (List.finite_toSet (l.names source)).subset ?_
  intro name hname
  have hnames : name ∈ l.names source ↔ name ∈ includedNames source ∨
      ∃ file ∈ l.files.texts, name ∈ includedNames file.toList := by
    simp only [names, List.mem_eraseDups, List.mem_append, List.mem_flatMap]
  refine hnames.mpr ?_
  rcases hname with hsource | ⟨path, file, hread, hfile⟩
  · exact .inl hsource
  · exact .inr ⟨file, l.files.mem_texts path file hread, hfile⟩

/-- Every name on the way of the walk, and every name included where it has come to, occurs. -/
theorem Trail.occurs_of_mem {chain : List String} {text : List Char} (h : l.Trail source chain text) :
    (∀ name ∈ chain, l.Occurs source name) ∧
      ∀ name ∈ includedNames text, l.Occurs source name := by
  induction h with
  | start => exact ⟨List.forall_mem_nil _, fun name hname => .inl hname⟩
  | file _ hmem _ hread ih =>
    refine ⟨List.forall_mem_append.mpr ⟨ih.1, ?_⟩, fun name hname => .inr ⟨_, _, hread, hname⟩⟩
    intro name hname
    rw [List.mem_singleton.mp hname]
    exact ih.2 _ hmem

/-- A trail is no longer than there are names. -/
theorem Trail.length_le {chain : List String} {text : List Char} (h : l.Trail source chain text) :
    chain.length ≤ {name | l.Occurs source name}.ncard := by
  have hcard : chain.toFinset.card = chain.length := List.toFinset_card_of_nodup h.nodup
  rw [← hcard, ← Set.ncard_coe_finset]
  refine Set.ncard_le_ncard ?_ (l.finite_occurs source)
  intro name hname
  exact h.occurs_of_mem.1 name (by simpa using hname)

/-- Through the file of a name a trail gets longer by that name. -/
theorem Trail.exists_deeper {chain : List String} {text : List Char} {name file : String}
    {depth : Nat} (h : l.Trail source chain text) (hname : name ∈ includedNames text)
    (hnot : name ∉ chain) (hread : l.files.read (l.path name) = .ok file)
    (hfile : ∀ {text : List Char}, l.Trail source (chain ++ [name]) text →
      includedNames file.toList ⊆ includedNames text →
      ∃ deepest last, l.Trail source deepest last ∧
        deepest.length = (chain ++ [name]).length + depth) :
    ∃ deepest last, l.Trail source deepest last ∧ deepest.length = chain.length + (depth + 1) := by
  obtain ⟨deepest, last, hdeepest, hlength⟩ :=
    hfile (h.file hname hnot hread) (List.Subset.refl _)
  refine ⟨deepest, last, hdeepest, ?_⟩
  rw [hlength, List.length_append, List.length_singleton]
  omega

/-- A walk is as deep as one of its trails is long. -/
theorem Walks.exists_trail {chain : List String} {ps : List Piece}
    {outcome : Except IncludeError (List Char)} {depth : Nat} (h : l.Walks chain ps outcome depth)
    {text : List Char} (htrail : l.Trail source chain text)
    (hps : ps.filterMap Piece.name? ⊆ includedNames text) :
    ∃ deepest last, l.Trail source deepest last ∧ deepest.length = chain.length + depth := by
  induction h generalizing text with
  | nil | cycle | missing => exact ⟨_, text, htrail, rfl⟩
  | char _ ih =>
    rw [Piece.filterMap_name?_char] at hps
    exact ih htrail hps
  | fails hnot hread _ ih =>
    rw [Piece.filterMap_name?_directive, List.cons_subset] at hps
    exact htrail.exists_deeper hps.1 hnot hread ih
  | @file _ _ _ _ depth depth' _ _ hnot hread _ _ ih ih' =>
    rw [Piece.filterMap_name?_directive, List.cons_subset] at hps
    rcases Nat.le_total depth' (depth + 1) with hle | hle
    · rw [Nat.max_eq_left hle]
      exact htrail.exists_deeper hps.1 hnot hread ih
    · rw [Nat.max_eq_right hle]
      exact ih' htrail hps.2

/-- Wherever a trail has come to, the walk from there ends. The induction is on the number of names
that are not in the chain. -/
theorem Trail.exists_walks {chain : List String} {text : List Char}
    (h : l.Trail source chain text) :
    ∃ outcome depth, l.Walks chain (pieces text) outcome depth := by
  induction hleft : {name | l.Occurs source name}.ncard - chain.length using Nat.strongRecOn
    generalizing chain text with
  | ind left ih =>
    subst hleft
    refine exists_walks_of_names fun name hname hnot file hread => ?_
    have hlonger := h.file hname hnot hread
    have hlength := hlonger.length_le
    rw [List.length_append, List.length_singleton] at hlength
    refine ih _ ?_ hlonger rfl
    rw [List.length_append, List.length_singleton]
    omega

/-! ## The outcome -/

/-- The bound that is taken for a source is never met. -/
theorem expandAtFuel_eq_ofExcept (l : Library) (source : String) :
    l.expandAtFuel ((l.names source.toList).length + 1) [] source.toList =
      .ofExcept ((l.expand source).map String.toList) := by
  unfold expand
  split
  · next t h =>
    rw [h]
    simp [Expansion.ofExcept, Except.map]
  · next e h => exact h
  · next h => exact absurd h (l.expandAtFuel_names_ne_outOfFuel source.toList)

/-- **Inclusion ends.** Whatever the source, the directory and the files are, there is exactly one
walk through the source, and it ends in what expansion yields. It is no deeper than there are names
in the source and the files without their comments, and no chain of files that include one another is
longer than that, also if one file is met again under another name. The depth is just what a bound on
the depth must exceed not to be noticed. -/
theorem expand_terminates (l : Library) (source : String) :
    ∃ depth, depth ≤ {name | l.Occurs source.toList name}.ncard ∧
      (∀ outcome d, l.Walks [] (pieces source.toList) outcome d ↔
        outcome = (l.expand source).map String.toList ∧ d = depth) ∧
      (∀ n, l.expandAtFuel n [] source.toList = .outOfFuel ↔ n ≤ depth) ∧
      {name | l.Occurs source.toList name}.Finite ∧
      ∀ chain text, l.Trail source.toList chain text →
        chain.length ≤ {name | l.Occurs source.toList name}.ncard := by
  have hstart : l.Trail source.toList [] source.toList := .start
  obtain ⟨outcome, depth, hwalks⟩ := hstart.exists_walks
  obtain ⟨deepest, last, htrail, hlength⟩ := hwalks.exists_trail hstart (List.Subset.refl _)
  rw [List.length_nil, Nat.zero_add] at hlength
  have hfuel (n : Nat) : l.expandAtFuel n [] source.toList = .outOfFuel ↔ n ≤ depth := by
    rw [hwalks.expandAtFuel_eq n]
    split
    · next hle => exact iff_of_true rfl hle
    · next hlt => exact iff_of_false (Expansion.ofExcept_ne_outOfFuel outcome) hlt
  have houtcome : outcome = (l.expand source).map String.toList := by
    have hexpand := l.expandAtFuel_eq_ofExcept source
    have henough := mt (hfuel _).mpr (l.expandAtFuel_names_ne_outOfFuel source.toList)
    rw [hwalks.expandAtFuel_eq, if_neg henough] at hexpand
    exact Expansion.ofExcept_injective hexpand
  refine ⟨depth, hlength ▸ htrail.length_le, ?_, hfuel, l.finite_occurs _, fun _ _ => Trail.length_le⟩
  intro outcome' d
  constructor
  · intro hwalks'
    obtain ⟨rfl, rfl⟩ := hwalks.unique hwalks'
    exact ⟨houtcome, rfl⟩
  · rintro ⟨rfl, rfl⟩
    exact houtcome ▸ hwalks

/-- A file that can be read under two spellings of its path, and includes itself under the second. -/
def respelled : Library where
  files := .ofList [("lib/a", .ok "include \"./a\""), ("lib/./a", .ok "include \"./a\"")]
  directory := "lib"

/-- The file of `respelled` is entered once under each of its two names. -/
theorem expand_terminates_respelled :
    respelled.expand "include \"a\"" = .error (.cycle ["a", "./a", "./a"]) ∧
    respelled.Walks [] (pieces "include \"a\"".toList) (.error (.cycle ["a", "./a", "./a"])) 2 ∧
    2 ≤ {name | respelled.Occurs "include \"a\"".toList name}.ncard := by
  have hexpand : respelled.expand "include \"a\"" = .error (.cycle ["a", "./a", "./a"]) := by
    decide +kernel
  have htwo : respelled.expandAtFuel 2 [] "include \"a\"".toList = .outOfFuel := by decide +kernel
  have hthree : respelled.expandAtFuel 3 [] "include \"a\"".toList ≠ .outOfFuel := by decide +kernel
  obtain ⟨depth, hle, hwalks, hfuel, -, -⟩ := respelled.expand_terminates "include \"a\""
  have hdepth : depth = 2 := by
    have hlower := (hfuel 2).mp htwo
    have hupper := mt (hfuel 3).mpr hthree
    omega
  subst hdepth
  refine ⟨hexpand, (hwalks _ _).mpr ⟨?_, rfl⟩, hle⟩
  rw [hexpand]
  rfl

end Duet.Library
