import CodeAtlas.Config
import CodeAtlas.Json
import CodeAtlas.Manifest

/-!
# Reports of scans

How configurations and manifests are written as JSON.
-/

namespace CodeAtlas

/-- A configuration. -/
def Config.toJson (c : Config) : Json :=
  .obj [("extensions", .strings c.extensions), ("ignore_patterns", .strings c.ignorePatterns),
    ("respect_gitignore", .bool c.respectGitignore)]

/-- A failure of a scan. -/
def ScanFailure.toJson (f : ScanFailure) : Json :=
  .obj [("file", .str f.file), ("reason", .str f.reason)]

/-- The fields of a manifest, apart from the time. -/
def Manifest.fields (m : Manifest) : List (String × Json) :=
  [("root", .str m.root), ("files_considered", .nat m.filesConsidered),
    ("files_indexed", .nat m.filesIndexed),
    ("per_extension", .obj (m.perExtension.toList.map fun (ext, n) => (ext, .nat n))),
    ("symbol_count", .nat m.symbolCount), ("function_count", .nat m.functionCount),
    ("struct_count", .nat m.structCount), ("unterminated", .nat m.unterminated),
    ("error_count", .nat m.errorCount), ("errors", .list ScanFailure.toJson m.errors)]

/-- A manifest with the time of the scan. -/
def Manifest.toJson (m : Manifest) : Json :=
  .obj (m.fields ++ [("scanned_at", .str m.scannedAt)])

end CodeAtlas
