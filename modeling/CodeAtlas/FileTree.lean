import CodeAtlas.Path

/-!
# File trees

A tree of directories and files, with a current directory from which relative paths start. A place in the
tree is the list of names from the top down to it. What the disk refuses to open is in the tree with the
reason.

* `FileTree.at?`, `FileTree.insert`, `FileTree.erase`: what is at a place.
* `FileSystem.resolve`: the place that a path leads to; a path through a file leads nowhere, and neither
  does one with a name that is too long.
* `FileSystem.read`: the bytes of the file that a path leads to.
-/

namespace CodeAtlas

/-- Why a path cannot be used. -/
inductive AccessError where
  | notFound
  | notDirectory
  | isDirectory
  | nameTooLong
  /-- The path holds a character that ends a path on the disk. -/
  | nulInName
  | permissionDenied
  /-- The disk fails for any other reason. -/
  | inputOutput
deriving DecidableEq, Repr

/-- The text of an error. -/
def AccessError.message : AccessError → String
  | notFound => "No such file or directory (os error 2)"
  | notDirectory => "Not a directory (os error 20)"
  | isDirectory => "Is a directory (os error 21)"
  | nameTooLong => "File name too long (os error 36)"
  | nulInName => "file name contained an unexpected NUL byte"
  | permissionDenied => "Permission denied (os error 13)"
  | inputOutput => "Input/output error (os error 5)"

/-- A file or a directory with all that is below it. -/
inductive FileTree where
  | file (content : ByteArray)
  | directory (entries : List (String × FileTree))
  /-- A file or a directory that cannot be opened. -/
  | closed (isDirectory : Bool) (cause : AccessError)
deriving Inhabited

namespace FileTree

/-- The tree without anything in it. -/
def empty : FileTree := .directory []

/-- Whether a tree is a directory. -/
def isDirectory : FileTree → Bool
  | .directory _ => true
  | .file _ => false
  | .closed isDirectory _ => isDirectory

/-- The entries of a directory; a file has none, and neither has what cannot be opened. -/
def entries : FileTree → List (String × FileTree)
  | .directory entries => entries
  | .file _ | .closed _ _ => []

/-- What is at a place. -/
def at? (tree : FileTree) : List String → Option FileTree
  | [] => some tree
  | name :: rest => (tree.entries.lookup name).bind (·.at? rest)

/-- Puts an entry in the place of the one with its name, or at the end. -/
def putEntry (name : String) (tree : FileTree) : List (String × FileTree) → List (String × FileTree)
  | [] => [(name, tree)]
  | entry :: rest =>
    if entry.1 == name then (name, tree) :: rest else entry :: putEntry name tree rest

/-- Puts a tree at a place; the directories on the way are made if they are missing. -/
def insert (tree new : FileTree) : List String → FileTree
  | [] => new
  | name :: rest =>
    let below := (tree.entries.lookup name).getD empty
    .directory (putEntry name (below.insert new rest) tree.entries)

/-- Takes away what is at a place. -/
def erase (tree : FileTree) : List String → FileTree
  | [] => empty
  | [name] => .directory (tree.entries.filter (·.1 != name))
  | name :: rest =>
    match tree.entries.lookup name with
    | some below => .directory (putEntry name (below.erase rest) tree.entries)
    | none => tree

end FileTree

/-- A file tree with a current directory. -/
structure FileSystem where
  tree : FileTree
  /-- The place of the current directory. -/
  current : List String

namespace FileSystem

/-- The path of a place from the top. -/
def absolutePath (place : List String) : String :=
  "/" ++ "/".intercalate place

/-- The largest number of bytes of a name. -/
def maxNameSize : Nat := 255

/-- The largest number of bytes of a path. -/
def maxPathSize : Nat := 4095

/-- The place after one more piece of a path: an empty piece and a dot stay, two dots go up. -/
def follow (fs : FileSystem) (place : List String) (piece : Text) : Except AccessError (List String) :=
  match fs.tree.at? place with
  | none => .error .notFound
  | some (.file _) | some (.closed false _) => .error .notDirectory
  | some (.closed true cause) => .error cause
  | some (.directory entries) =>
    if piece.isEmpty || piece == ['.'] then .ok place
    else if piece == ['.', '.'] then .ok place.dropLast
    else
      let name := String.ofList piece
      if maxNameSize < name.utf8ByteSize then .error .nameTooLong
      else if (entries.lookup name).isSome then .ok (place ++ [name])
      else .error .notFound

/-- The place that a path leads to. Whether the path can be used at all is asked first. -/
def resolve (fs : FileSystem) (path : String) : Except AccessError (List String) :=
  match path.toList with
  | [] => .error .notFound
  | c :: rest =>
    let start := if c == '/' then [] else fs.current
    if (c :: rest).contains '\x00' then .error .nulInName
    else if maxPathSize < path.utf8ByteSize then .error .nameTooLong
    else (Text.segments '/' (c :: rest)).foldlM fs.follow start

/-- What a path leads to. -/
def lookup (fs : FileSystem) (path : String) : Except AccessError FileTree := do
  match fs.tree.at? (← fs.resolve path) with
  | some tree => .ok tree
  | none => .error .notFound

/-- The bytes of the file that a path leads to. -/
def read (fs : FileSystem) (path : String) : Except AccessError ByteArray := do
  match ← fs.lookup path with
  | .file content => .ok content
  | .directory _ => .error .isDirectory
  | .closed _ cause => .error cause

end FileSystem

end CodeAtlas
