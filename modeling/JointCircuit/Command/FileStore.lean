/-
JointCircuit.Command.FileStore — files by path.

A store keeps the contents of files by their location and knows where a
path leads. Writing a file again replaces its contents.

Main statements: a file reads back as it was last written
(`read?_write_self`), and writing one path leaves alone every path that
leads elsewhere (`read?_write_of_ne`).
-/
import JointCircuit.Bytes
import JointCircuit.Command.Location

namespace JointCircuit

/-- Files by path. -/
structure FileStore where
  /-- Where a path leads, written as a path; every path is a place of its own by default. -/
  locate : String → Except FileError String := .ok
  /-- The files by location; of several entries of one location the first counts. -/
  entries : List (String × Bytes) := []

namespace FileStore

/-- The contents of the file at a path. -/
def read? (files : FileStore) (path : String) : Option Bytes :=
  match files.locate path with
  | .ok place => files.entries.lookup place
  | .error _ => none

/-- Write a file. -/
def write (files : FileStore) (path : String) (contents : Bytes) : Except FileError FileStore :=
  match files.locate path with
  | .error error => .error error
  | .ok place =>
    let others := files.entries.filter (·.1 ≠ place)
    .ok { files with entries := (place, contents) :: others }

/-- Write several files, in order; the first that cannot be written ends it. -/
def writeAll (files : FileStore) : List (String × Bytes) → Except FileError FileStore
  | [] => .ok files
  | (path, contents) :: rest => do
    let files ← files.write path contents
    files.writeAll rest

/-- A store without files in a tree of directories. -/
def ofTree (tree : DirectoryTree) : FileStore where
  locate path := (tree.locate path).map Location.render

/-- The files of a directory, whose path ends in a slash: their names in ascending order, with
their contents. -/
def listing (files : FileStore) (directory : String) : List (String × Bytes) :=
  let named := files.entries.filterMap fun (path, contents) =>
    if path.startsWith directory then
      some (String.ofList (path.toList.drop directory.length), contents)
    else none
  named.mergeSort fun a b => a.1 ≤ b.1

theorem locate_write {files after : FileStore} {path : String} {contents : Bytes}
    (h : files.write path contents = .ok after) : after.locate = files.locate := by
  unfold write at h
  split at h <;> cases h
  rfl

theorem read?_write_self {files after : FileStore} {path : String} {contents : Bytes}
    (h : files.write path contents = .ok after) : after.read? path = some contents := by
  unfold write at h
  split at h
  · cases h
  · rename_i place hplace
    cases h
    simp [read?, hplace]

theorem lookup_filter_of_ne {entries : List (String × Bytes)} {place other : String}
    (h : other ≠ place) : (entries.filter (·.1 ≠ place)).lookup other = entries.lookup other := by
  induction entries with
  | nil => rfl
  | cons entry rest ih =>
    obtain ⟨p, b⟩ := entry
    by_cases hp : p = place
    · subst hp
      have hb : (other == p) = false := beq_false_of_ne h
      simpa [List.lookup_cons, hb] using ih
    · by_cases ho : other = p
      · subst ho
        simp [hp]
      · have hb : (other == p) = false := beq_false_of_ne ho
        simpa [List.lookup_cons, hp, hb] using ih

theorem read?_write_of_ne {files after : FileStore} {path other : String} {contents : Bytes}
    (h : files.write path contents = .ok after) (hne : files.locate other ≠ files.locate path) :
    after.read? other = files.read? other := by
  unfold write at h
  split at h
  · cases h
  · rename_i place hplace
    cases h
    simp only [read?]
    cases hother : files.locate other with
    | error e => rfl
    | ok spot =>
      have hspot : spot ≠ place := fun heq => hne (by rw [hother, hplace, heq])
      have hb : (spot == place) = false := beq_false_of_ne hspot
      simp only [List.lookup_cons, hb]
      exact lookup_filter_of_ne hspot

end FileStore

end JointCircuit
