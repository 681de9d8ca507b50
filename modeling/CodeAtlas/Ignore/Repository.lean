import CodeAtlas.FileTree
import CodeAtlas.Ignore.Rule

/-!
# Repositories

A directory is the top of a repository if it holds a marker. The rules that a repository keeps apart from
its files are in its exclude file. The marker is a directory that holds this file, or it is a file that
names the home of a work tree; the home then names the directory that holds the exclude file.

* `FileSystem.isRepository`: whether a directory is the top of a repository.
* `FileSystem.excludeHome`: the directory that holds the exclude file of a repository.
* `FileSystem.excludeFile`: the rules of that file.
-/

namespace CodeAtlas

namespace FileSystem

/-- The ignore file at a path; one that cannot be read has no rules. -/
def ignoreFile (fs : FileSystem) (path : String) : IgnoreFile :=
  match fs.read path with
  | .ok content => .ofBytes path content.toList
  | .error _ => {}

/-- Whether a directory is the top of a repository. -/
def isRepository (fs : FileSystem) (directory : String) : Bool :=
  [".git", ".jj"].any fun marker => (fs.lookup (Path.join directory [marker])).toBool

/-- The first line of the file at a path. That there is none is an error, but not a fault. -/
def firstLine (path : String) (content : ByteArray) : Except (List IgnoreFault) Text :=
  match IgnoreFile.byteLines content.toList with
  | [] => .error []
  | line :: _ =>
    match String.fromUTF8? ⟨line.toArray⟩ with
    | some line => .ok line.toList
    | none => .error [⟨some path, none, IgnoreFile.undecodable⟩]

/-- The home that the first line of a marker names. -/
def homeOfLine? (line : Text) : Option String :=
  let key := "gitdir: ".toList
  if key.isPrefixOf line then some (String.ofList (line.drop key.length)) else none

/-- The file in the home of a work tree that names the directory it has in common with others. -/
def commonPath (home : String) : String :=
  Path.join home ["commondir"]

/-- The directory that a line of this file names: one that starts with a dot counts from the home. -/
def commonOfLine (home : String) (line : Text) : String :=
  if line.head? == some '.' then Path.join home [String.ofList line] else String.ofList line

/-- The directory that holds the exclude file of the repository at a directory, or the faults on the way to
it. -/
def excludeHome (fs : FileSystem) (directory : String) : Except (List IgnoreFault) String :=
  let marker := Path.join directory [".git"]
  match fs.lookup marker with
  | .ok (.closed false cause) => .error [⟨some marker, none, cause.message⟩]
  | .ok (.file content) => do
    match homeOfLine? (← firstLine marker content) with
    | none => .error []
    | some home =>
      match fs.read (commonPath home) with
      | .ok content => return commonOfLine home (← firstLine (commonPath home) content)
      | .error .isDirectory => .error [⟨some (commonPath home), none, AccessError.isDirectory.message⟩]
      | .error _ => .error []
  | _ => .ok marker

/-- The path of the exclude file in the directory that holds it. -/
def excludePath (home : String) : String :=
  Path.join home ["info", "exclude"]

/-- The rules that the repository at a directory keeps apart from its files. -/
def excludeFile (fs : FileSystem) (directory : String) : IgnoreFile :=
  match fs.excludeHome directory with
  | .ok home => fs.ignoreFile (excludePath home)
  | .error faults => { faults := faults }

end FileSystem

end CodeAtlas
