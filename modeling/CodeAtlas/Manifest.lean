import CodeAtlas.Layout
import CodeAtlas.Sequence

/-!
# The manifest of a scan

What a scan looked at, what it found and what went wrong.

* `Manifest.recordIndexed`, `Manifest.recordFailure`: one more file, read or not.
* `Manifest.text`: the manifest for a reader.
-/

namespace CodeAtlas

/-- A file or directory that a scan could not read. -/
structure ScanFailure where
  file : String
  reason : String
deriving DecidableEq, Repr

/-- What a scan looked at and what it found. -/
structure Manifest where
  /-- The directory that was scanned. -/
  root : String
  /-- The number of files with an extension that the scan takes. -/
  filesConsidered : Nat := 0
  /-- The number of files that were read. -/
  filesIndexed : Nat := 0
  /-- The number of files that were read, by extension with a dot in front. -/
  perExtension : Dict Nat := ∅
  symbolCount : Nat := 0
  functionCount : Nat := 0
  structCount : Nat := 0
  /-- The number of blocks that do not end. -/
  unterminated : Nat := 0
  errorCount : Nat := 0
  errors : List ScanFailure := []
  /-- The time of the scan. -/
  scannedAt : String := ""

namespace Manifest

/-- One more file was read. -/
def recordIndexed (m : Manifest) (extension : String) : Manifest :=
  let key := "." ++ extension
  { m with
    filesIndexed := m.filesIndexed + 1
    perExtension := m.perExtension.insert key (m.perExtension.getD key 0 + 1) }

/-- One more file could not be read. -/
def recordFailure (m : Manifest) (file reason : String) : Manifest :=
  { m with errorCount := m.errorCount + 1, errors := m.errors ++ [⟨file, reason⟩] }

/-- Whether nothing went wrong. -/
def isComplete (m : Manifest) : Bool :=
  m.errorCount == 0

/-- The line of an extension: the name in at least eight columns, then the number of files. -/
def extensionLine (entry : String × Nat) : String :=
  s!"  {Layout.padRight 8 entry.1} {entry.2}\n"

/-- The manifest for a reader. -/
def text (m : Manifest) : String :=
  s!"Root: {m.root}\n" ++
  s!"Files: {m.filesIndexed} indexed / {m.filesConsidered} considered\n" ++
  "".intercalate (m.perExtension.toList.map extensionLine) ++
  s!"Symbols: {m.symbolCount} ({m.functionCount} functions, {m.structCount} structs/classes)\n" ++
  (if 0 < m.unterminated then s!"Unterminated blocks: {m.unterminated}\n" else "") ++
  s!"Errors: {m.errorCount}" ++
  "".intercalate (m.errors.map fun e => s!"\n  {e.file}: {e.reason}")

end Manifest

end CodeAtlas
