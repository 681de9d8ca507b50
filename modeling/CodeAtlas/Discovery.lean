import CodeAtlas.Config
import CodeAtlas.Ignore.Level
import CodeAtlas.Log
import CodeAtlas.Manifest

/-!
# Discovery of files

The files below a root that a configuration takes, in the order of their keys. A directory that is left
out is not entered; the root itself is never left out.

* `Exclusions.ofPatterns`: the rules of the patterns of a configuration.
* `FileTree.walk`: the files below a directory that are not left out.
* `FileSystem.discover`: the files with an extension that is taken.
-/

namespace CodeAtlas

/-- A file that a scan takes. -/
structure DiscoveredFile where
  /-- The path at which the file is read. -/
  path : String
  /-- The path below the root. -/
  key : String
  extension : String
  language : Language
deriving DecidableEq, Repr

/-- The files of a scan, with what could not be read on the way. -/
structure Discovery where
  files : List DiscoveredFile := []
  failures : List ScanFailure := []
  /-- Patterns that are not used because they cannot be read. -/
  warnings : List String := []
deriving DecidableEq, Repr

/-- The rules of some patterns, with warnings about those that cannot be read. -/
structure Exclusions where
  rules : List IgnoreRule := []
  warnings : List String := []

namespace Exclusions

/-- The rules of single patterns. Each is read as a line with an exclamation mark in front, so that no
character at its start has a meaning of its own, except a slash. -/
def readPatterns : List String → Exclusions
  | [] => {}
  | pattern :: rest =>
    let others := readPatterns rest
    match IgnoreRule.ofLine false ('!' :: pattern.toList) with
    | .ok none => others
    | .ok (some rule) => { others with rules := rule :: others.rules }
    | .error e =>
      { others with
        warnings := s!"Ignoring invalid ignore pattern '{pattern}': {e.message}" :: others.warnings }

/-- The rules of some patterns; none if they cannot be used together. -/
def ofPatterns (patterns : List String) : Exclusions :=
  let read := readPatterns patterns
  match IgnoreRule.setError? read.rules with
  | none => read
  | some e =>
    { rules := [], warnings := read.warnings ++ [s!"Failed to build ignore overrides: {e.message}"] }

end Exclusions

/-- What a walk through a tree goes by. -/
structure Walk where
  files : FileSystem
  /-- The path of the root. -/
  root : String
  exclusions : Exclusions
  respectGitignore : Bool

/-- Whether a walk leaves out a place. The patterns come before the ignore files. -/
def Walk.leavesOut (walk : Walk) (levels : List IgnoreLevel) (isDirectory : Bool)
    (p : WalkedPlace) : Bool :=
  let path := ruleBytes walk.root p.path
  walk.exclusions.rules.any (·.fits isDirectory path) ||
    IgnoreLevel.verdict? levels isDirectory p == some .leftOut

/-- What a walk comes to. -/
inductive WalkStep where
  | file (p : WalkedPlace)
  /-- A directory that cannot be opened at its path. -/
  | closed (p : WalkedPlace) (cause : AccessError)
deriving DecidableEq, Repr

namespace WalkStep

/-- The path of the file that a walk comes to. -/
def filePath? : WalkStep → Option String
  | file p => some p.path
  | closed _ _ => none

/-- The failure to use a path below a root. -/
def accessFailure (root path : String) (cause : AccessError) : ScanFailure :=
  ⟨Path.relativeKey root path, s!"{path}: IO error for operation on {path}: {cause.message}"⟩

/-- The failure of a step of a walk from a root. -/
def failure? (root : String) : WalkStep → Option ScanFailure
  | file _ => none
  | closed p cause => some (accessFailure root p.path cause)

end WalkStep

namespace FileTree

mutual

/-- The files of a tree that a walk does not leave out, and the directories that it cannot open. -/
def walk (w : Walk) (levels : List IgnoreLevel) (p : WalkedPlace) : FileTree → List WalkStep
  | .file _ | .closed false _ => [.file p]
  | .closed true cause => [.closed p cause]
  | .directory entries =>
    match w.files.resolve p.path with
    | .error cause => [.closed p cause]
    | .ok _ =>
      walkEntries w (IgnoreLevel.ofDirectory w.files w.respectGitignore false p.path :: levels) p entries

/-- What a walk comes to in some entries of the directory at a place. -/
def walkEntries (w : Walk) (levels : List IgnoreLevel) (p : WalkedPlace) :
    List (String × FileTree) → List WalkStep
  | [] => []
  | (name, tree) :: rest =>
    let below := p.entry name
    (if w.leavesOut levels tree.isDirectory below then [] else tree.walk w levels below) ++
      walkEntries w levels p rest

end

end FileTree

/-- The file at a path, if its extension is taken. -/
def Config.discovered? (config : Config) (root path : String) : Option DiscoveredFile := do
  let extension := normalizeExtension (← Path.extension? path)
  if config.extensions.contains extension then
    some ⟨path, Path.relativeKey root path, extension,
      (Language.ofExtension? extension).getD .other⟩
  else none

/-- The failure of a walk because of faults in the ignore files above its root. It is about the first file
that a fault names, or else about the root. -/
def walkFailure? (root : String) (faults : List IgnoreFault) : Option ScanFailure :=
  if faults.isEmpty then none
  else
    let file := ((faults.findSome? IgnoreFault.path).map (Path.relativeKey root)).getD root
    some ⟨file, "\n".intercalate (faults.map IgnoreFault.message)⟩

/-- Whether a root stands for what is given on the standard input, where no files are. -/
def Path.isStandardInput (root : String) : Bool :=
  Path.components root == [.name "-"]

/-- The files below a root that a configuration takes. A root that is a file is taken as it is, and a dash
has no files, whether or not a directory of that name exists. What is left out depends on the patterns of the
configuration and on the ignore files in the tree; a file with rules for all repositories of a user has no part
in it. -/
def FileSystem.discover (fs : FileSystem) (config : Config) (root : String) : Discovery :=
  let exclusions := Exclusions.ofPatterns config.ignorePatterns
  if Path.isStandardInput root then { warnings := exclusions.warnings }
  else
    match (do let place ← fs.resolve root; let tree ← fs.lookup root; return (place, tree)) with
    | .error e =>
      { failures := [WalkStep.accessFailure root root e], warnings := exclusions.warnings }
    | .ok (place, tree) =>
      let levels :=
        if tree.isDirectory then IgnoreLevel.above fs config.respectGitignore place else []
      let steps := tree.walk ⟨fs, root, exclusions, config.respectGitignore⟩ levels ⟨place, root⟩
      let found := (steps.filterMap WalkStep.filePath?).filterMap (config.discovered? root)
      { files := sortBy (fun a b => a.key ≤ b.key) found
        failures := (walkFailure? root (levels.reverse.flatMap IgnoreLevel.faults)).toList ++
          steps.filterMap (WalkStep.failure? root)
        warnings := exclusions.warnings }

/-- The lines of the log about a discovery. -/
def Discovery.log (d : Discovery) : List LogLine :=
  d.warnings.map LogLine.warn ++
    d.failures.map fun f => LogLine.warn s!"Skipping unreadable entry: {f.reason}"

end CodeAtlas
