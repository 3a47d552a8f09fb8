import SlotPool.Config.Toml

/-!
# Configuration files

A `Directory` is a file tree to look files up in. Looking up and reading fail the way that paths
fail: a name that is missing or too long, a directory in the place of a file, a file in the place of
a directory, or bytes that are no text.
-/

namespace SlotPool

/-- A file tree: the paths of its files, each as the names from the root on, with their bytes. -/
structure Directory where
  files : List (List String × ByteArray) := []
  /-- Directories that exist without any file in them. -/
  directories : List (List String) := []

namespace Directory

/-- The names on a path from the root. Relative paths start at the root as well. A dot stands for
where one is, and two for the directory around it. -/
def names (path : String) : List String :=
  (path.splitOn "/").filter (· ≠ "")

inductive Entry where
  | file (bytes : ByteArray)
  | directory

/-- What stands at this place of the tree, if anything does. -/
def entry? (d : Directory) (place : List String) : Option Entry :=
  match d.files.find? (·.1 = place) with
  | some (_, bytes) => some (.file bytes)
  | none =>
    if place = [] || d.directories.any (place.isPrefixOf ·) ||
        d.files.any (place.isPrefixOf ·.1) then
      some .directory
    else none

/-- The most bytes of a name. -/
def longestName : Nat := 255

/-- The most bytes of a whole path. -/
def longestPath : Nat := 4095

/-- The path is too long, or a name on it is. -/
def isTooLong (path : String) : Bool :=
  path.utf8ByteSize > longestPath || (names path).any (·.utf8ByteSize > longestName)

/-- Follows names from a directory of the tree. A name that is too long is refused when the
directory is there in which it would be looked up. -/
def walk (d : Directory) (place : List String) : List String → Except FileFault Entry
  | [] =>
    match d.entry? place with
    | some entry => .ok entry
    | none => .error .missing
  | name :: rest =>
    match d.entry? place with
    | none => .error .missing
    | some (.file _) => .error .notDirectory
    | some .directory =>
      if name.utf8ByteSize > longestName then .error .nameTooLong
      else if name = "." then walk d place rest
      else if name = ".." then walk d place.dropLast rest
      else walk d (place ++ [name]) rest

/-- The text of the file at `path`. A path that ends in a slash is one of a directory. What is wrong
with the whole path is found before any name is looked up. -/
def read (d : Directory) (path : String) : Except FileFault String := do
  if path.isEmpty then throw .missing
  if path.any (· = '\x00') then throw .zeroInName
  if path.utf8ByteSize > longestPath then throw .nameTooLong
  match ← d.walk [] (names path) with
  | .directory => throw .isDirectory
  | .file bytes =>
    if path.endsWith "/" then throw .notDirectory
    match String.fromUTF8? bytes with
    | some text => return text
    | none => throw .notUtf8

end Directory

namespace Config

/-- The configuration in a file, from what came of reading the file at `path`. -/
def ofContent (path : String) : Except FileFault String → Except PoolError Config
  | .error fault => .error (.invalidConfig (.unreadable path fault))
  | .ok text => ofToml text

/-- The configuration in the file at `path`. -/
def ofFile (d : Directory) (path : String) : Except PoolError Config :=
  ofContent path (d.read path)

end Config

end SlotPool
