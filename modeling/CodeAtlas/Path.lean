import CodeAtlas.Language

/-!
# Paths

A path is a string of components between slashes. Repeated slashes and dots inside a path do not count;
a dot in front of a relative path does.

* `Path.components`: the components of a path.
* `Path.extension?`: what follows the last dot of the file name, unless the name starts with its only dot.
* `Path.relativeKey`: the components of a path below a root, joined by slashes.
* `Path.join`: a path followed by names.
* `Path.writtenBelow`: the part of a path below a directory, by the text of the two.
-/

namespace CodeAtlas

namespace Path

/-- A component of a path. -/
inductive Component where
  /-- The slash in front of an absolute path. -/
  | root
  /-- The dot in front of a relative path. -/
  | current
  /-- Two dots. -/
  | parent
  /-- The name of a file or directory. -/
  | name (s : String)
deriving DecidableEq, Repr

/-- How a component is written. -/
def Component.text : Component → String
  | root => "/"
  | current => "."
  | parent => ".."
  | name s => s

/-- The component that a piece of a path stands for, if it counts. -/
def componentOf? (piece : Text) : Option Component :=
  if piece.isEmpty || piece == ['.'] then none
  else if piece == ['.', '.'] then some .parent
  else some (.name (String.ofList piece))

/-- The components of a path. -/
def components (path : String) : List Component :=
  let pieces := Text.segments '/' path.toList
  let inner := pieces.filterMap componentOf?
  if path.toList.head? == some '/' then .root :: inner
  else if pieces.head? == some ['.'] then .current :: inner
  else inner

/-- Components as a path. -/
def ofComponents (parts : List Component) : String :=
  match parts with
  | .root :: rest => "/" ++ "/".intercalate (rest.map Component.text)
  | parts => "/".intercalate (parts.map Component.text)

/-- The name at the end of a path, unless it ends with dots or a slash only. -/
def fileName? (path : String) : Option String :=
  match (components path).getLast? with
  | some (.name s) => some s
  | _ => none

/-- What follows the last dot of a file name; none if there is no dot, or none but the first character. -/
def nameExtension? (name : String) : Option String :=
  let reversed := name.toList.reverse
  let after := reversed.takeWhile (· != '.')
  match reversed.drop after.length with
  | [] => none
  | ['.'] => none
  | _ => some (String.ofList after.reverse)

/-- The extension of the file that a path names. -/
def extension? (path : String) : Option String :=
  (fileName? path).bind nameExtension?

/-- The components of a path after those of a root, if it starts with them. -/
def below? (root path : List Component) : Option (List Component) :=
  if root.isPrefixOf path then some (path.drop root.length) else none

/-- The components of a path below a root, or all of them if it is not below, joined by slashes. -/
def relativeKey (root path : String) : String :=
  let parts := components path
  "/".intercalate (((below? (components root) parts).getD parts).map Component.text)

/-- A path followed by some names. -/
def join (root : String) (names : List String) : String :=
  if names.isEmpty then root
  else if root.isEmpty || root.toList.getLast? == some '/' then root ++ "/".intercalate names
  else root ++ "/" ++ "/".intercalate names

/-- Whether a path is only another way to write the current directory. -/
def isCurrent (path : String) : Bool :=
  components path == [.current]

/-- A path without a dot and a slash in front. -/
def dropDot : Text → Text
  | '.' :: '/' :: rest => rest
  | path => path

/-- The part of a path below a directory, by the text of the two. A dot and a slash in front do not count,
once for the directory and twice for the path; further ones count like any name. A path that does not start
with the directory is taken as a whole, as are a single name and every path below the current directory. -/
def writtenBelow (directory path : String) : Text :=
  let top := dropDot directory.toList
  let path := dropDot (dropDot path.toList)
  if isCurrent (String.ofList top) || !path.contains '/' || !top.isPrefixOf path then path
  else
    match path.drop top.length with
    | '/' :: rest => rest
    | rest => rest

end Path

/-- The language that the extension of a path announces. -/
def Language.ofPath? (path : String) : Option Language :=
  (Path.extension? path).bind Language.ofExtension?

end CodeAtlas
