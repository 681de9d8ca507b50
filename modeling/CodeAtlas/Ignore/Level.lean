import CodeAtlas.Ignore.Repository

/-!
# Ignore files of directories

Each directory on the way to a path may hold ignore files. Those that are nearer to the path count first.
The files that belong to a repository count only inside one, and none above its top.

A rule looks at the part of a path below the directory of its file. For a directory that the walk goes
through, this is taken from the path as the walk writes it; for one above the root of the walk, from the path
that starts at the top of the tree.

* `IgnoreLevel.ofDirectory`: the rules of a directory.
* `IgnoreLevel.verdict?`: what the directories on the way say about a path.
* `IgnoreLevel.above`: the rules of the directories above a place.
-/

namespace CodeAtlas

/-- A place that a walk comes to. -/
structure WalkedPlace where
  place : List String
  /-- The path of the place as the walk writes it. -/
  path : String
deriving DecidableEq, Repr

/-- The place of an entry of the directory at a place. -/
def WalkedPlace.entry (p : WalkedPlace) (name : String) : WalkedPlace :=
  ⟨p.place ++ [name], Path.join p.path [name]⟩

/-- The part of a path below a directory, as the bytes that rules look at. -/
def ruleBytes (directory path : String) : List UInt8 :=
  (String.ofList (Path.writtenBelow directory path)).toUTF8.toList

/-- The rules that a directory holds. Rules come from directories only: the ignore file that a user keeps for all
repositories is not read. -/
structure IgnoreLevel where
  /-- The path of the directory. -/
  directory : String
  /-- Whether the directory is above the root of the walk. -/
  isAbove : Bool
  /-- The rules that always count. -/
  ignore : IgnoreFile := {}
  /-- The rules of a repository. -/
  git : IgnoreFile := {}
  /-- The rules of a repository that are kept apart from its files. -/
  exclude : IgnoreFile := {}
  /-- Whether the directory is the top of a repository. -/
  hasGit : Bool := false

namespace IgnoreLevel

/-- The rules of the directory at a path. -/
def ofDirectory (fs : FileSystem) (respectGitignore isAbove : Bool) (directory : String) : IgnoreLevel :=
  let ignore := fs.ignoreFile (Path.join directory [".ignore"])
  if respectGitignore then
    { directory := directory
      isAbove := isAbove
      ignore := ignore
      git := fs.ignoreFile (Path.join directory [".gitignore"])
      exclude := fs.excludeFile directory
      hasGit := fs.isRepository directory }
  else { directory := directory, isAbove := isAbove, ignore := ignore }

/-- What is wrong in the files of a directory. -/
def faults (level : IgnoreLevel) : List IgnoreFault :=
  level.ignore.faults ++ level.git.faults ++ level.exclude.faults

/-- What the rules of a directory look at in a place. -/
def ruleBytes (level : IgnoreLevel) (p : WalkedPlace) : List UInt8 :=
  CodeAtlas.ruleBytes level.directory
    (if level.isAbove then FileSystem.absolutePath p.place else p.path)

/-- The levels up to the top of the repository. -/
def withinRepository : List IgnoreLevel → List IgnoreLevel
  | [] => []
  | level :: above => if level.hasGit then [level] else level :: withinRepository above

/-- What one kind of file says about a place, the nearest directory first. -/
def firstVerdict? (file : IgnoreLevel → IgnoreFile) (levels : List IgnoreLevel) (isDirectory : Bool)
    (p : WalkedPlace) : Option Verdict :=
  levels.findSome? fun level =>
    match (file level).rules with
    | [] => none
    | rules => IgnoreRule.verdict? rules isDirectory (level.ruleBytes p)

/-- What the directories on the way to a place say about it. -/
def verdict? (levels : List IgnoreLevel) (isDirectory : Bool) (p : WalkedPlace) : Option Verdict :=
  let inside := if levels.any hasGit then withinRepository levels else []
  (firstVerdict? ignore levels isDirectory p).or
    ((firstVerdict? git inside isDirectory p).or (firstVerdict? exclude inside isDirectory p))

/-- The rules of the directories above a place, the nearest first. -/
def above (fs : FileSystem) (respectGitignore : Bool) (place : List String) : List IgnoreLevel :=
  (List.range place.length).reverse.map fun depth =>
    ofDirectory fs respectGitignore true (FileSystem.absolutePath (place.take depth))

end IgnoreLevel

end CodeAtlas
