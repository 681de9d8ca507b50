import CodeAtlas.Discovery
import CodeAtlas.SymbolTable

/-!
# Indexes

A scan discovers the files below a root, reads them and merges what they define into a symbol table. A
file that cannot be read is a failure in the manifest; only a root that cannot be used stops the scan.

* `ReadError`: why a file cannot be read.
* `Scan`: a discovery with what came of reading its files.
* `Scan.outcome`: the table and the manifest of a scan.
* `FileSystem.scan`: the scan of a root.
-/

namespace CodeAtlas

/-- Why a source cannot be read. -/
inductive ReadError where
  | access (path : String) (cause : AccessError)
  /-- The file is not UTF-8. -/
  | decode (path : String)
deriving DecidableEq, Repr

/-- The text of an error. -/
def ReadError.message : ReadError → String
  | access path cause => s!"Failed to read {path}: {cause.message}"
  | decode path => s!"File is not valid UTF-8: {path}"

/-- Why a root cannot be scanned. -/
inductive RootError where
  | notFound (root : String)
  | notDirectory (root : String)
deriving DecidableEq, Repr

/-- The text of an error. -/
def RootError.message : RootError → String
  | notFound root => s!"Root does not exist: {root}"
  | notDirectory root => s!"Root is not a directory: {root}"

namespace FileSystem

/-- The source of a discovered file. -/
def readSource (fs : FileSystem) (file : DiscoveredFile) : Except ReadError Source :=
  match fs.read file.path with
  | .error cause => .error (.access file.path cause)
  | .ok content =>
    match String.fromUTF8? content with
    | some text => .ok (.ofText file.key file.language text.toList)
    | none => .error (.decode file.path)

/-- The path from the top to a root, which must be a directory. -/
def canonicalRoot (fs : FileSystem) (root : String) : Except RootError String :=
  match fs.resolve root with
  | .error _ => .error (.notFound root)
  | .ok place =>
    if (fs.tree.at? place).any FileTree.isDirectory then .ok (absolutePath place)
    else .error (.notDirectory root)

end FileSystem

/-- The result of reading a discovered file. -/
abbrev ReadResult := DiscoveredFile × Except ReadError Fragment

/-- A discovery with what came of reading its files. -/
structure Scan where
  root : String
  /-- The time of the scan. -/
  time : String
  discovery : Discovery
  results : List ReadResult

/-- What a scan found. -/
structure ScanOutcome where
  table : SymbolTable
  manifest : Manifest

namespace Scan

/-- The scan of some discovered files, each read by `read`. -/
def ofDiscovery (root time : String) (discovery : Discovery)
    (read : DiscoveredFile → Except ReadError Source) : Scan :=
  ⟨root, time, discovery, discovery.files.map fun file => (file, (read file).map Fragment.ofSource)⟩

/-- The fragments of the files that were read. -/
def fragments (scan : Scan) : List Fragment :=
  scan.results.filterMap fun (_, result) => result.toOption

/-- The symbols of the files that were read. -/
def table (scan : Scan) : SymbolTable :=
  .ofFragments scan.fragments

/-- The manifest before any file is read: the failures of the discovery are in it. -/
def startManifest (scan : Scan) : Manifest :=
  scan.discovery.failures.foldl (fun m f => m.recordFailure f.file f.reason)
    { root := scan.root, filesConsidered := scan.discovery.files.length, scannedAt := scan.time }

/-- The manifest after one more file is read, or fails to be. -/
def recordResult (m : Manifest) : ReadResult → Manifest
  | (file, .ok fragment) =>
    { m with unterminated := m.unterminated + fragment.unterminated }.recordIndexed file.extension
  | (file, .error e) => m.recordFailure file.key e.message

/-- The table and the manifest of a scan. -/
def outcome (scan : Scan) : ScanOutcome :=
  let table := scan.table
  { table := table
    manifest :=
      { scan.results.foldl recordResult scan.startManifest with
        symbolCount := table.size
        functionCount := table.functionCount
        structCount := table.structCount } }

/-- The lines of the log about one file. -/
def resultLog : ReadResult → List LogLine
  | (file, .ok fragment) =>
    if 0 < fragment.unterminated then
      [.warn s!"{file.key}: {fragment.unterminated} unterminated block(s) run to end of file"]
    else []
  | (file, .error e) => [.warn s!"Skipping {file.key}: {e.message}"]

end Scan

/-- The line of the log about the whole of a scan. -/
def Manifest.summary (m : Manifest) : String :=
  let kinds := s!"({m.functionCount} functions, {m.structCount} structs/classes)"
  s!"Indexed {m.filesIndexed}/{m.filesConsidered} files: {m.symbolCount} symbols {kinds}, {m.errorCount} errors"

/-- The lines of the log about a scan with a manifest. -/
def Scan.log (scan : Scan) (manifest : Manifest) : List LogLine :=
  .info s!"Scanning {scan.root}" :: scan.discovery.log ++ scan.results.flatMap resultLog ++
    [.info manifest.summary]

/-- What a scan found, with the lines of its log. -/
structure LoggedOutcome where
  outcome : ScanOutcome
  log : List LogLine

/-- Scans a root at a time. -/
def FileSystem.scan (fs : FileSystem) (config : Config) (time root : String) :
    Except RootError LoggedOutcome := do
  let root ← fs.canonicalRoot root
  let scan := Scan.ofDiscovery root time (fs.discover config root) fs.readSource
  let outcome := scan.outcome
  return ⟨outcome, scan.log outcome.manifest⟩

end CodeAtlas
