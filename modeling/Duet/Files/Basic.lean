/-!
# Reading files

`Files` is all that the library knows of a file system: what reading a path gives, and the
finitely many texts that it can give. `FileTree` is a file system held in memory, given by the
paths and contents of its files; every beginning of such a path is a directory. Paths are walked
name by name, so `.`, `..`, doubled and trailing slashes mean what they mean on a disk.

The working directory is the root of the tree. What lies outside it is not known, except that
there are directories all the way up; every other name there is missing.
-/

namespace Duet

/-- Why a file cannot be read. -/
inductive ReadError where
  | notFound
  | permissionDenied
  | notDirectory
  | isDirectory
  | nameTooLong
  | zeroByte
  | invalidText
  /-- Any other failure, with its own description. -/
  | other (text : String)
deriving DecidableEq, Repr

/-- The text of a failure. -/
def ReadError.message : ReadError → String
  | .notFound => "No such file or directory (os error 2)"
  | .permissionDenied => "Permission denied (os error 13)"
  | .notDirectory => "Not a directory (os error 20)"
  | .isDirectory => "Is a directory (os error 21)"
  | .nameTooLong => "File name too long (os error 36)"
  | .zeroByte => "file name contained an unexpected NUL byte"
  | .invalidText => "stream did not contain valid UTF-8"
  | .other text => text

/-- Readable files: what each path holds. Only finitely many texts can be read. -/
structure Files where
  read : String → Except ReadError String
  texts : List String
  mem_texts : ∀ path text, read path = .ok text → text ∈ texts

namespace Files

/-- The files whose contents, or failures, are listed by path; all other paths are missing. -/
def ofList (entries : List (String × Except ReadError String)) : Files where
  read path := (entries.lookup path).getD (.error .notFound)
  texts := entries.filterMap fun (_, outcome) => outcome.toOption
  mem_texts := by
    intro path text h
    simp only [List.mem_filterMap]
    cases hl : entries.lookup path with
    | none => simp [hl] at h
    | some outcome =>
      obtain ⟨_, _, _, hmem⟩ := List.lookup_eq_some_iff.mp hl
      simp only [hl, Option.getD_some] at h
      subst h
      exact ⟨(path, .ok text), by simp [*], rfl⟩

end Files

/-- The contents of a file as text. -/
def decodeText (bytes : ByteArray) : Except ReadError String :=
  match String.fromUTF8? bytes with
  | some text => .ok text
  | none => .error .invalidText

/-- Files in memory. A path is given by the names on it. -/
structure FileTree where
  files : List (List String × ByteArray)

namespace FileTree

/-- What a path leads to. -/
inductive Entry where
  | file (bytes : ByteArray)
  | directory

/-- What stands at the end of a list of names. -/
def entry? (t : FileTree) (names : List String) : Option Entry :=
  match t.files.lookup names with
  | some bytes => some (.file bytes)
  | none =>
    if names.isEmpty || t.files.any (fun (path, _) => names.isPrefixOf path) then some .directory
    else none

/-- Where a walk has come to. -/
inductive Place where
  /-- At these names below the working directory. -/
  | inside (names : List String)
  /-- In a directory that is not below the working directory. -/
  | outside
deriving DecidableEq, Repr

/-- The longest name of a file, in bytes. -/
def maxName : Nat := 255

/-- The longest path, in bytes. -/
def maxPath : Nat := 4095

/-- Goes from a place to a name in it. -/
def enter (t : FileTree) (place : Place) (name : String) : Except ReadError Place :=
  match place with
  | .outside =>
    if name = "." || name = ".." then .ok .outside
    else if maxName < name.utf8ByteSize then .error .nameTooLong
    else .error .notFound
  | .inside names =>
    match t.entry? names with
    | some .directory =>
      if name = "." then .ok (.inside names)
      else if name = ".." then .ok (if names.isEmpty then .outside else .inside names.dropLast)
      else if maxName < name.utf8ByteSize then .error .nameTooLong
      else if (t.entry? (names ++ [name])).isSome then .ok (.inside (names ++ [name]))
      else .error .notFound
    | _ => .error .notDirectory

/-- The names on a path. A trailing slash asks for a directory, as a final `.` does. -/
def pathNames (path : String) : List String :=
  let names := (path.splitOn "/").filter (· ≠ "")
  if path.endsWith "/" then names ++ ["."] else names

/-- Walks a path. -/
def walk (t : FileTree) (path : String) : Except ReadError Place :=
  if path.contains '\x00' then .error .zeroByte
  else if path.isEmpty then .error .notFound
  else if maxPath < path.utf8ByteSize then .error .nameTooLong
  else
    let start : Place := if path.startsWith "/" then .outside else .inside []
    (pathNames path).foldlM t.enter start

/-- Reads the file at a path as text. -/
def read (t : FileTree) (path : String) : Except ReadError String :=
  match t.walk path with
  | .error e => .error e
  | .ok .outside => .error .isDirectory
  | .ok (.inside names) =>
    match t.entry? names with
    | some (.file bytes) => decodeText bytes
    | some .directory => .error .isDirectory
    | none => .error .notFound

/-- The texts of all files that hold text. -/
def texts (t : FileTree) : List String :=
  t.files.filterMap fun (_, bytes) => (decodeText bytes).toOption

/-- What can be read is one of the texts. -/
theorem mem_texts_of_read {t : FileTree} {path text : String} (h : t.read path = .ok text) :
    text ∈ t.texts := by
  unfold read at h
  split at h
  · simp at h
  · simp at h
  · rename_i names _
    split at h
    · rename_i bytes he
      unfold entry? at he
      split at he
      · rename_i found hl
        obtain ⟨_, _, hfiles, _⟩ := List.lookup_eq_some_iff.mp hl
        simp only [Option.some.injEq, Entry.file.injEq] at he
        subst he
        simp only [texts, List.mem_filterMap]
        exact ⟨(names, found), by simp [hfiles], by simp [h, Except.toOption]⟩
      · split at he <;> simp at he
    · simp at h
    · simp at h

/-- The tree as readable files. -/
def toFiles (t : FileTree) : Files where
  read := t.read
  texts := t.texts
  mem_texts _ _ h := mem_texts_of_read h

/-- The tree of files given by their paths. -/
def ofList (entries : List (String × ByteArray)) : FileTree :=
  ⟨entries.map fun (path, bytes) => ((pathNames path).filter (· ≠ "."), bytes)⟩

end FileTree

/-- A name inside a directory. An absolute name stands for itself. -/
def joinPath (directory name : String) : String :=
  if name.startsWith "/" then name
  else if directory.isEmpty || directory.endsWith "/" then directory ++ name
  else directory ++ "/" ++ name

end Duet
