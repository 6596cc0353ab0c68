import RegisterLayout.Failure
import RegisterLayout.Text.Line

/-!
# Files

The files that a run of the command sees, below its working directory.  A path leads through
directories only, and names that mean the same place are one location, so that a file keeps its
identity whatever path it is reached by.

Principal definitions: `FileTree`, `FileTree.walk`, `FileTree.read?`, `FileTree.locationToWrite`,
`FileTree.put`; principal results: `FileTree.lookup_put_self`, `FileTree.lookup_put_of_ne`.
-/

namespace RegisterLayout

/-- The names on the way to a place from the working directory, or from the slash that stands
first. -/
abbrev Location := List String

structure FileTree where
  files : List (Location × ByteArray) := []
  /-- Directories besides those that hold a file. -/
  directories : List Location := []
  deriving Inhabited

/-- The place that a name leads to from a directory. -/
def Location.child (here : Location) (name : String) : Location :=
  if name = "" ∨ name = "." then here
  else if name = ".." ∧ here.any (· ≠ "..") then here.dropLast
  else here ++ [name]

namespace FileTree

def lookup (t : FileTree) (location : Location) : Option ByteArray := t.files.lookup location

def holdsFile (t : FileTree) (location : Location) : Bool := (t.lookup location).isSome

/-- A directory holds something, or is known to be there. -/
def isDirectory (t : FileTree) (location : Location) : Bool :=
  location.all (· == "..") || location == ["/"] || location ∈ t.directories
    || t.files.any fun (other, _) => location.isPrefixOf other && location.length < other.length

/-- Why a place cannot be gone through. -/
def obstacle (t : FileTree) (location : Location) : Failure :=
  if t.holdsFile location then .notDirectory else .noSuchFile

/-- The most bytes of a name. -/
def maxNameSize : Nat := 255

/-- The most bytes of a path. -/
def maxPathSize : Nat := 4095

/-- Follows names from a place; all but the last have to lead to directories. -/
def walk (t : FileTree) (here : Location) : List String → Except Failure Location
  | [] => .ok here
  | name :: rest =>
    if !t.isDirectory here then .error (t.obstacle here)
    else if maxNameSize < name.utf8ByteSize then .error .longPath
    else walk t (here.child name) rest

/-- The names between slashes. -/
private def namesIn (path : List Char) : List String := (Text.splitOn '/' path).map String.ofList

/-- Where a path begins, and the names in it. -/
def pathParts (path : String) : Except Failure (Location × List String) :=
  if '\x00' ∈ path.toList then .error .nullInPath
  else if maxPathSize < path.utf8ByteSize then .error .longPath
  else
    match path.toList with
    | '/' :: rest => .ok (["/"], namesIn rest)
    | path => .ok ([], namesIn path)

/-- The place that a path leads to. -/
def locate (t : FileTree) (path : String) : Except Failure Location := do
  let (start, names) ← pathParts path
  t.walk start names

/-- The contents of the file that a path leads to. -/
def read? (t : FileTree) (path : String) : Option ByteArray :=
  match t.locate path with
  | .ok location => t.lookup location
  | .error _ => none

def isFile (t : FileTree) (path : String) : Bool := (t.read? path).isSome

/-- The place of a file to write, which need not be there yet.  Its directory has to be, and a
slash at the end asks for a directory. -/
def locationToWrite (t : FileTree) (path : String) : Except Failure Location := do
  let (start, names) ← pathParts path
  let kept := (names.reverse.dropWhile (· == "")).reverse
  let parent ← t.walk start kept.dropLast
  if !t.isDirectory parent then throw (t.obstacle parent)
  let location ← t.walk parent [kept.getLast?.getD ""]
  if kept.length < names.length || t.isDirectory location then throw .isDirectory
  return location

/-- The files with the contents of one set. -/
def putIn (location : Location) (contents : ByteArray) :
    List (Location × ByteArray) → List (Location × ByteArray)
  | [] => [(location, contents)]
  | (other, old) :: rest =>
    if location = other then (location, contents) :: rest
    else (other, old) :: putIn location contents rest

/-- The tree with the contents of one file set, and no other file changed. -/
def put (t : FileTree) (location : Location) (contents : ByteArray) : FileTree :=
  { t with files := putIn location contents t.files }

/-- The places that names lead through from a place, without the last one. -/
def placesThrough (here : Location) : List String → List Location
  | [] => []
  | name :: rest => here :: placesThrough (here.child name) rest

/-- The tree with a file that is known to be at a path, and the directories on the way. -/
def enter (t : FileTree) (path : String) (contents : ByteArray) : FileTree :=
  match pathParts path with
  | .error _ => t
  | .ok (start, names) =>
    let t := { t with directories := placesThrough start names ++ t.directories }
    match t.locate path with
    | .ok location => t.put location contents
    | .error _ => t

theorem lookup_putIn_self (location : Location) (contents : ByteArray)
    (files : List (Location × ByteArray)) :
    (putIn location contents files).lookup location = some contents := by
  induction files with
  | nil => simp [putIn]
  | cons entry rest ih =>
    obtain ⟨key, old⟩ := entry
    by_cases h : location = key
    · simp [putIn, h]
    · simp [putIn, h, List.lookup_cons, beq_false_of_ne h, ih]

theorem lookup_putIn_of_ne {location other : Location} (contents : ByteArray)
    (files : List (Location × ByteArray)) (h : other ≠ location) :
    (putIn location contents files).lookup other = files.lookup other := by
  induction files with
  | nil => simp [putIn, List.lookup_cons, beq_false_of_ne h]
  | cons entry rest ih =>
    obtain ⟨key, old⟩ := entry
    by_cases hk : location = key
    · simp [putIn, hk, List.lookup_cons, beq_false_of_ne (hk ▸ h)]
    · simp [putIn, hk, List.lookup_cons, ih]

/-- A file that was set has the contents it was given. -/
theorem lookup_put_self (t : FileTree) (location : Location) (contents : ByteArray) :
    (t.put location contents).lookup location = some contents :=
  lookup_putIn_self location contents t.files

/-- Setting one file leaves the others alone. -/
theorem lookup_put_of_ne (t : FileTree) {location other : Location} (contents : ByteArray)
    (h : other ≠ location) : (t.put location contents).lookup other = t.lookup other :=
  lookup_putIn_of_ne contents t.files h

end FileTree

end RegisterLayout
