/-
JointCircuit.Command.Location — where a path leads.

A path is a row of names with slashes between them. It is followed from
the root if it begins with a slash and else from the working directory;
an empty name and `.` stay where they are, and `..` goes up. A file lies
in a directory that exists, so every name but the last has to be one.

Main statement: a file is never located where a directory is
(`follow_not_mem`).
-/

namespace JointCircuit

/-- Why a path leads to no file. -/
inductive FileError where
  /-- A directory on the way does not exist, or the path is empty. -/
  | notFound
  /-- The path leads to a directory. -/
  | isDirectory
  /-- The path contains the null character. -/
  | invalidPath
  | nameTooLong
deriving DecidableEq, Repr

/-- The text shown for a path that leads to no file. -/
def FileError.message : FileError → String
  | .notFound => "no such file or directory"
  | .isDirectory => "is a directory"
  | .invalidPath => "the path contains a null character"
  | .nameTooLong => "file name too long"

/-- The names on the way from the root. -/
abbrev Location := List String

/-- The location as a path from the root. -/
def Location.render (location : Location) : String :=
  String.join (location.map ("/" ++ ·))

/-- The directories that exist besides the root, and the one that paths start from. -/
structure DirectoryTree where
  directories : List Location
  working : Location
deriving DecidableEq, Repr

namespace DirectoryTree

/-- The longest name, in bytes. -/
def nameLimit : Nat := 255

/-- No path takes this many bytes. -/
def pathLimit : Nat := 4096

/-- Follow the names of a path. A slash after the last name asks for a directory. -/
def follow (tree : DirectoryTree) (place : Location) : List String → Except FileError Location
  | [] => .error .isDirectory
  | name :: rest =>
    if name = "" ∨ name = "." then follow tree place rest
    else if name = ".." then follow tree place.dropLast rest
    else if !rest.isEmpty && rest.all (·.isEmpty) then .error .isDirectory
    else if nameLimit < name.utf8ByteSize then .error .nameTooLong
    else if place ++ [name] ∈ tree.directories then follow tree (place ++ [name]) rest
    else if rest.isEmpty then .ok (place ++ [name])
    else .error .notFound

/-- The location of the file at a path. -/
def locate (tree : DirectoryTree) (path : String) : Except FileError Location :=
  if path.toList.contains (Char.ofNat 0) then .error .invalidPath
  else if path.isEmpty then .error .notFound
  else if pathLimit ≤ path.utf8ByteSize then .error .nameTooLong
  else tree.follow (if path.startsWith "/" then [] else tree.working) (path.splitOn "/")

theorem follow_not_mem {tree : DirectoryTree} {place location : Location} {names : List String}
    (h : tree.follow place names = .ok location) : location ∉ tree.directories := by
  induction names generalizing place with
  | nil => simp [follow] at h
  | cons name rest ih =>
    unfold follow at h
    split at h
    · exact ih h
    · split at h
      · exact ih h
      · split at h
        · cases h
        · split at h
          · cases h
          · split at h
            · exact ih h
            · rename_i hnew
              split at h
              · cases h
                exact hnew
              · cases h

end DirectoryTree

end JointCircuit
