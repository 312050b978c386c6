import SqlDialect.Failure

/-!
# File trees

A `FileTree` holds the files and directories that a command can see, by the names on the way from the working
directory, or from the root for a path with a leading slash. A directory also exists if a file stands below it.

The names of a path are followed one after the other.

* `read_ok`: what is read is the text of a file at the path.
-/

namespace SqlDialect

/-- The names on the way to a file or directory. -/
abbrev Place := List String

namespace Place

/-- The working directory. -/
def here : Place := []

/-- The root. -/
def root : Place := ["/"]

/-- Does the place lead to the root, the working directory or one above that? -/
def isTop (place : Place) : Bool := place == root || place.all (· == "..")

/-- The place of the directory that a place stands in. -/
def up (place : Place) : Place :=
  if place == root then root else if place.isTop then place ++ [".."] else place.dropLast

/-- The place that a name leads to from a directory. -/
def next (place : Place) (name : String) : Place :=
  if name = "" ∨ name = "." then place else if name = ".." then place.up else place ++ [name]

/-- Where a path starts, and the names on the way from there. -/
def ofPath (path : String) : Place × List String :=
  (if path.startsWith "/" then root else here, path.splitOn "/")

/-- Has the name more bytes than a directory can hold? -/
def isTooLong (name : String) : Bool := 255 < name.utf8ByteSize

/-- Has the path more bytes than are looked at? -/
def isPathTooLong (path : String) : Bool := 4095 < path.utf8ByteSize

/-- The path of a place. -/
def path (place : Place) : String :=
  if place = root then "/" else if place = here then "." else "/".intercalate (place.map fun n => if n = "/" then "" else n)

end Place

/-- The files and directories that a command can see. -/
structure FileTree where
  files : List (Place × ByteArray) := []
  directories : List Place := []

namespace FileTree

/-- What stands at a place of a tree. -/
inductive Node where
  | file (content : ByteArray)
  | directory

/-- Is there a directory at the place? -/
def hasDirectory (tree : FileTree) (place : Place) : Bool :=
  place.isTop || tree.directories.contains place || tree.files.any fun (other, _) => place.isPrefixOf other

/-- What stands at the place with the given names on the way to it. -/
def node? (tree : FileTree) (place : Place) : Option Node :=
  match tree.files.find? (·.1 == place) with
  | some (_, content) => some (.file content)
  | none => if tree.hasDirectory place then some .directory else none

/-- The tree with what stands at a place. -/
def add (tree : FileTree) (place : Place) : Option Node → FileTree
  | some (.file content) => { tree with files := (place, content) :: tree.files }
  | some .directory => { tree with directories := place :: tree.directories }
  | none => tree

/-- The place behind the names of a path, where all names but the last lead to directories. -/
def walk (tree : FileTree) (place : Place) : List String → Except FileFault Place
  | [] => .ok place
  | [name] => if Place.isTooLong name then .error .nameTooLong else .ok (place.next name)
  | name :: names =>
    match tree.node? (place.next name) with
    | some .directory => walk tree (place.next name) names
    | some (.file _) => .error .notDirectory
    | none => .error (if Place.isTooLong name then .nameTooLong else .notFound)

/-- The place of a path. -/
def place? (tree : FileTree) (path : String) : Except FileFault Place :=
  if path.isEmpty then .error .notFound
  else if Place.isPathTooLong path then .error .nameTooLong
  else
    match Place.ofPath path with
    | (start, names) => tree.walk start names

/-- Does the path lead to a file or directory? -/
def contains (tree : FileTree) (path : String) : Bool :=
  match tree.place? path with
  | .ok place => (tree.node? place).isSome
  | .error _ => false

/-- The text of the file at a path. -/
def read (tree : FileTree) (path : String) : Except FileFault String :=
  match tree.place? path with
  | .error e => .error e
  | .ok place =>
    match tree.node? place with
    | none => .error .notFound
    | some .directory => .error .isDirectory
    | some (.file content) =>
      match String.fromUTF8? content with
      | some text => .ok text
      | none => .error .notText

/-- What is read is the text of a file at the path. -/
theorem read_ok {tree : FileTree} {path text : String} (h : tree.read path = .ok text) :
    ∃ place content, tree.place? path = .ok place ∧ tree.node? place = some (.file content) ∧
      String.fromUTF8? content = some text := by
  unfold read at h
  split at h
  · cases h
  · next place hp =>
    split at h
    · cases h
    · cases h
    · next content hc =>
      split at h
      · next t ht => cases h; exact ⟨place, content, hp, hc, ht⟩
      · cases h

/-- Does the rest of a path lead to where it is, by at least one dot? -/
def endsInDot (names : List String) : Bool := names.contains "." && names.all fun name => name = "" || name = "."

/-- The tree with the directories on the way from a place by the given names. They cannot be made if a file stands in
the way at the end or before, or if the path names the last one by a dot, which only a directory that exists has. -/
def makeFrom (tree : FileTree) (place : Place) : List String → Except FileFault FileTree
  | [] => .ok tree
  | name :: names =>
    match tree.node? (place.next name) with
    | some (.file _) => .error (if names.all String.isEmpty then .exists else .notDirectory)
    | some .directory => makeFrom tree (place.next name) names
    | none =>
      if Place.isTooLong name then .error .nameTooLong
      else if endsInDot names then .error .notFound
      else makeFrom (tree.add (place.next name) (some .directory)) (place.next name) names

/-- The tree with a directory and those above it. -/
def makeDirectories (tree : FileTree) (path : String) : Except FileFault FileTree :=
  if path.contains '\x00' then .error .zero
  else if Place.isPathTooLong path then .error .nameTooLong
  else
    match Place.ofPath path with
    | (start, names) => tree.makeFrom start names

/-- A path below a directory. -/
def join (directory name : String) : String :=
  if directory.isEmpty || directory.endsWith "/" then directory ++ name else directory ++ "/" ++ name

end FileTree

end SqlDialect
