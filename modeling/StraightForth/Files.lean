import StraightForth.Path

/-!
# Files

A program reads one file and may write another. It does so through a host, which is either the
disk or, where whole runs are to be reasoned about, a value that holds files in memory.

The host in memory walks a path name by name and goes through directories that exist. The last
name of the path to a new file is the only one that may lead to nothing.
-/

namespace StraightForth

/-- Why a file cannot be read or written. -/
inductive AccessFailure
  | missing
  | isDirectory
  | notDirectory
  | other (text : String)
deriving DecidableEq

/-- The system's wording of a failure. -/
def AccessFailure.text : AccessFailure → String
  | missing => "No such file or directory (os error 2)"
  | isDirectory => "Is a directory (os error 21)"
  | notDirectory => "Not a directory (os error 20)"
  | other text => text

/-- Access to files by their paths. Writing replaces the whole content. -/
structure Host (m : Type → Type) where
  read : String → m (Except AccessFailure ByteArray)
  write : String → String → m (Except AccessFailure Unit)

/-- What lies at a place. -/
inductive Entry
  | directory
  | file (content : ByteArray)

instance : DecidableEq Entry
  | .directory, .directory => isTrue rfl
  | .file content, .file other =>
      decidable_of_iff (content.data = other.data)
        ⟨fun h => congrArg Entry.file (ByteArray.ext h), fun h => by cases h; rfl⟩
  | .directory, .file _ | .file _, .directory => isFalse Entry.noConfusion

/-- A tree of files, each with its place. A directory exists as soon as something lies in it. -/
structure Files where
  entries : List (Place × Entry)
deriving DecidableEq

namespace Files

/-- What lies at a place. The start directory and those around it always exist. -/
def entry? (files : Files) (place : Place) : Option Entry :=
  match files.entries.lookup place with
  | some entry => some entry
  | none =>
      if place.isAround ∨ files.entries.any fun entry => place.isPrefixOf entry.1 then
        some .directory
      else none

/-- Put an entry in the place of whatever lies there. -/
def put (files : Files) (place : Place) (entry : Entry) : Files :=
  ⟨(place, entry) :: files.entries.filter fun old => old.1 ≠ place⟩

/-- Go from a directory into one that a name leads to. -/
def enter (files : Files) (place : Place) (name : String) : Except AccessFailure Place :=
  match files.entry? (place.next name) with
  | some .directory => .ok (place.next name)
  | some (.file _) => .error .notDirectory
  | none => .error .missing

/-- Walk from a directory along some names. Nothing has to lie where the last of them leads. -/
def walk (files : Files) (place : Place) : List String → Except AccessFailure Place
  | [] => .ok place
  | [name] => .ok (place.next name)
  | name :: rest =>
      match files.enter place name with
      | .ok inner => files.walk inner rest
      | .error failure => .error failure

/-- Find the place of a path. The empty path leads nowhere. -/
def locate (files : Files) (path : String) : Except AccessFailure Place :=
  if path = "" then .error .missing else files.walk [] (Path.names path)

/-- A directory is entered under no other place than the one its name leads to. -/
theorem eq_next_of_enter {files : Files} {place found : Place} {name : String}
    (h : files.enter place name = .ok found) : found = place.next name := by
  unfold enter at h
  split at h <;> simp_all

/-- What exists decides whether a walk succeeds, but not where it ends. -/
theorem eq_foldl_of_walk {files : Files} {place found : Place} {names : List String}
    (h : files.walk place names = .ok found) : found = names.foldl Place.next place := by
  fun_induction walk files place names with
  | case1 => simp_all
  | case2 => simp_all
  | case3 place name rest _ inner entered ih =>
      rw [ih h, eq_next_of_enter entered, List.foldl_cons]
  | case4 => simp at h

/-- A path that can be walked leads to its place. -/
theorem eq_place_of_locate {files : Files} {path : String} {found : Place}
    (h : files.locate path = .ok found) : found = Path.place path := by
  unfold locate at h
  split at h
  · simp at h
  · exact eq_foldl_of_walk h

/-- The content of a file. A path to it does not end in a slash. -/
def read (files : Files) (path : String) : Except AccessFailure ByteArray := do
  match files.entry? (← files.locate path) with
  | none => throw .missing
  | some .directory => throw .isDirectory
  | some (.file content) =>
      if Path.endsInSlash path then throw .notDirectory else return content

/-- Write a file, which exists afterwards. A path that ends in a slash asks for a directory,
which is never written. -/
def write (files : Files) (path : String) (content : String) : Except AccessFailure Files := do
  let place ← files.locate path
  if Path.endsInSlash path ∨ files.entry? place = some .directory then
    throw .isDirectory
  else
    return files.put place (.file content.toUTF8)

/-- The host that keeps its files in memory. -/
def host : Host (StateM Files) where
  read path := return (← get).read path
  write path content := do
    match (← get).write path content with
    | .ok after =>
        set after
        return .ok ()
    | .error failure => return .error failure

end Files

end StraightForth
