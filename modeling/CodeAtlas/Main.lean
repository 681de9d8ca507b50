import CodeAtlas.Command.Arguments
import CodeAtlas.Command.Run
import Std.Time

/-!
# The command line

Reads the repository from the disk into a file tree, runs the command on it, and prints the answer. The
log goes to the error stream, so that the answer can be piped.
-/

namespace CodeAtlas

/-- The names of the files with rules, and of the files that lead to one. -/
def ruleFiles : List String :=
  [".ignore", ".gitignore", "exclude", ".git", "commondir"]

/-- Whether the content of a file matters to a scan: it is an ignore file, marks a repository or has an
extension to take. -/
def wantsContent (config : Config) (name : String) : Bool :=
  ruleFiles.contains name || (Path.nameExtension? name).any config.accepts

/-- Why the disk refuses to open something. -/
def AccessError.ofDisk : IO.Error → AccessError
  | .noFileOrDirectory .. => .notFound
  | .permissionDenied .. => .permissionDenied
  | _ => .inputOutput

/-- A tree with a directory at a place, if there is nothing yet. -/
def withDirectory (tree : FileTree) (place : List String) : FileTree :=
  if (tree.at? place).isSome then tree else tree.insert .empty place

/-- Adds the file at a place on the disk to a tree, if there is one. -/
def loadFile (tree : FileTree) (place : List String) : IO FileTree := do
  try
    let content ← IO.FS.readBinFile (FileSystem.absolutePath place)
    return tree.insert (.file content) place
  catch _ => return tree

/-- Adds the marker of a repository at a place on the disk to a tree, if there is one. -/
def loadMarker (tree : FileTree) (place : List String) : IO FileTree := do
  let tree ← loadFile tree place
  try
    let path ← IO.FS.realPath (FileSystem.absolutePath place)
    return if ← path.isDir then withDirectory tree place else tree
  catch _ => return tree

/-- The names of a path, from the top or from a place; two dots take a name away. -/
def namesFrom (place : List String) (path : String) : List String :=
  (Path.components path).foldl
    (fun names part =>
      match part with
      | .root => []
      | .current => names
      | .parent => names.dropLast
      | .name s => names ++ [s])
    place

/-- What a link stands for in a tree. A walk does not go through links, so those to source files and to
directories are not there. Files with rules and the markers of repositories count wherever they are kept; of a
directory that marks a repository, only its exclude file does. -/
def loadLink (name path : String) : IO (Option FileTree) := do
  if !(".jj" :: ruleFiles).contains name then return none
  let place := namesFrom [] path
  let tree ← loadMarker .empty place
  let tree ← loadFile tree (place ++ ["info", "exclude"])
  return tree.at? place

/-- The file at a path on the disk, with its content if it matters. -/
def loadContent (config : Config) (name path : String) : IO FileTree := do
  if wantsContent config name then
    try return .file (← IO.FS.readBinFile path)
    catch e => return .closed false (.ofDisk e)
  else return .file .empty

/-- The tree at a path on the disk, with the contents that matter. What the disk refuses to open is closed in the
tree, and the rest is loaded all the same. The state collects the directories with an entry that may lead to a
repository kept elsewhere. -/
partial def loadTree (config : Config) (path : String) : StateT (List String) IO FileTree := do
  try
    let mut entries : List (String × FileTree) := []
    for entry in ← (← IO.FS.realPath path).readDir do
      let name := entry.fileName
      let below := path ++ "/" ++ name
      if name == ".git" then modify (path :: ·)
      try
        -- the type of the entry itself, not of what a link leads to
        match (← entry.path.symlinkMetadata).type with
        | .dir => entries := (name, ← loadTree config below) :: entries
        | .file => entries := (name, ← loadContent config name below) :: entries
        | .symlink => entries := ((← loadLink name below).map (name, ·)).toList ++ entries
        | .other => pure ()
      catch e => entries := (name, .closed false (.ofDisk e)) :: entries
    return .directory entries
  catch e => return .closed true (.ofDisk e)

/-- Adds the ignore files of the directories above a place to a tree. -/
def loadAbove (tree : FileTree) : (place above : List String) → IO FileTree
  | [], _ => return tree
  | name :: rest, above => do
    let tree ← loadFile tree (above ++ [".ignore"])
    let tree ← loadFile tree (above ++ [".gitignore"])
    let tree ← loadMarker tree (above ++ [".git"])
    let tree ← loadMarker tree (above ++ [".jj"])
    let tree ← loadFile tree (above ++ [".git", "info", "exclude"])
    loadAbove tree rest (above ++ [name])

/-- Adds the exclude file that the marker in a directory leads to. -/
def loadExclude (fs : FileSystem) (directory : String) : IO FileSystem := do
  let load := fun (fs : FileSystem) (path : String) => do
    return { fs with tree := ← loadFile fs.tree (namesFrom fs.current path) }
  match fs.read (Path.join directory [".git"]) with
  | .error _ => return fs
  | .ok content =>
    match (FileSystem.firstLine directory content).toOption.bind FileSystem.homeOfLine? with
    | none => return fs
    | some home =>
      let fs ← load fs (FileSystem.commonPath home)
      match fs.excludeHome directory with
      | .ok home => load fs (FileSystem.excludePath home)
      | .error _ => return fs

/-- The file system as far as a scan of a root sees it. The root is loaded from the place that it leads
to, so its path has to be absolute and free of links. -/
def loadRoot (config : Config) (path : String) : IO FileSystem := do
  let place := namesFrom [] path
  let current := namesFrom [] (← IO.currentDir).toString
  let (tree, marked) ←
    if ← (← IO.FS.realPath path).isDir then (loadTree config path).run [] else pure (.file .empty, [])
  let above := (List.range place.length).map fun depth => FileSystem.absolutePath (place.take depth)
  let tree := withDirectory ((← loadAbove .empty place []).insert tree place) current
  (above ++ marked).foldlM loadExclude ⟨tree, current⟩

/-- Runs a command on the disk. -/
def runOnDisk (invocation : Invocation) : IO (Except CommandFailure Answer) := do
  let env : Variables :=
    ⟨← IO.getEnv "CODE_EXTENSIONS", ← IO.getEnv "CALLTRACE_IGNORE"⟩
  let time := (Std.Time.DateTime.ofTimestamp (← Std.Time.Timestamp.now) .UTC).format
    "uuuu-MM-dd'T'HH:mm:ss.SSSSSSSSS'Z'"
  let given := invocation.repo.path
  try
    let path := (← IO.FS.realPath given).toString
    let config := invocation.repo.config env
    let files ← loadRoot config path
    match { invocation with repo.path := path }.run ⟨files, env, time⟩ with
    | .ok answer => return .ok answer
    | .error _ => return .error ⟨given, .notDirectory given⟩
  catch _ => return .error ⟨given, .notFound given⟩

end CodeAtlas

/-- Reads the command line, runs the command and prints its answer. -/
def main (args : List String) : IO UInt32 := do
  match CodeAtlas.parseCommandLine args with
  | .error e =>
    IO.eprintln e.message
    return if e == .helpRequested || e == .versionRequested then 0 else 2
  | .ok invocation =>
    match ← CodeAtlas.runOnDisk invocation with
    | .ok answer =>
      for line in answer.log do
        IO.eprintln line.display
      IO.print answer.text
      return 0
    | .error failure =>
      IO.eprintln s!"Error: {failure.message}"
      return 1
