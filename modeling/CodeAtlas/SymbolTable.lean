import CodeAtlas.Extraction

/-!
# The symbol table

The symbols of many sources in one order: by file, first line and name. Of symbols with one identity, the
first is kept. The table knows where each name and each file occurs in it, what every source includes,
and the sources themselves.

* `SymbolTable.ofFragments`, `SymbolTable.ofSources`: the table of some sources.
* `SymbolTable.occurrences`: the symbols of a name, in the order of the table.
* `SymbolTable.get?`: the symbol of an identity.
* `SymbolTable.fingerprint`: a digest of the symbols and the contents of the sources.
-/

namespace CodeAtlas

/-- A source with what was read off it. -/
structure Fragment where
  source : Source
  symbols : List Symbol
  includes : List String
  unterminated : Nat

/-- The fragment of a source, by the rules of its language. -/
def Fragment.ofSource (source : Source) : Fragment :=
  let e := Extraction.ofSource source
  ⟨source, e.symbols, e.includes, e.unterminated⟩

/-- Adds the positions of symbols, counted from `position`, to the positions by key. -/
def indexFrom (key : Symbol → String) (position : Nat) (index : Dict (List Nat)) :
    List Symbol → Dict (List Nat)
  | [] => index
  | s :: rest =>
    indexFrom key (position + 1) (index.insert (key s) (index.getD (key s) [] ++ [position])) rest

/-- The positions of the symbols by a key of theirs, ascending. -/
def indexBy (key : Symbol → String) (symbols : List Symbol) : Dict (List Nat) :=
  indexFrom key 0 ∅ symbols

/-- The symbols of some sources, with the places of names and files. -/
structure SymbolTable where
  /-- The symbols, in order. -/
  symbols : List Symbol
  /-- The positions of each name. -/
  byName : Dict (List Nat)
  /-- The positions of the symbols of each file. -/
  byFile : Dict (List Nat)
  /-- The includes of each source. -/
  includes : Dict (List String)
  /-- The sources by key. -/
  sources : Dict Source
  /-- The positions of names are read off the symbols. -/
  byName_eq : byName = indexBy Symbol.name symbols
  /-- The positions of files are read off the symbols. -/
  byFile_eq : byFile = indexBy Symbol.file symbols

namespace SymbolTable

/-- Whether a symbol comes before another in the table, or at its place. -/
def inOrder (a b : Symbol) : Bool :=
  match compare a.file b.file with
  | .lt => true
  | .gt => false
  | .eq => a.startLine < b.startLine || (a.startLine == b.startLine && a.name ≤ b.name)

/-- Whether two symbols have one identity. -/
def sameId (a b : Symbol) : Bool :=
  a.file == b.file && a.startLine == b.startLine && a.name == b.name

/-- The table of some fragments. Of the sources with one key, the last one is kept. -/
def ofFragments (fragments : List Fragment) : SymbolTable :=
  let symbols := (sortBy inOrder (fragments.flatMap Fragment.symbols)).eraseRepsBy sameId
  { symbols := symbols
    byName := indexBy Symbol.name symbols
    byFile := indexBy Symbol.file symbols
    includes := fragments.foldl (fun d f => d.insert f.source.key f.includes) ∅
    sources := fragments.foldl (fun d f => d.insert f.source.key f.source) ∅
    byName_eq := rfl
    byFile_eq := rfl }

/-- The table of some sources. -/
def ofSources (sources : List Source) : SymbolTable :=
  ofFragments (sources.map Fragment.ofSource)

instance : Inhabited SymbolTable := ⟨ofFragments []⟩

/-- The number of symbols. -/
def size (table : SymbolTable) : Nat :=
  table.symbols.length

/-- The positions of a name. -/
def positions (table : SymbolTable) (name : String) : List Nat :=
  table.byName.getD name []

/-- The symbols of a name. -/
def occurrences (table : SymbolTable) (name : String) : List Symbol :=
  (table.positions name).filterMap (table.symbols[·]?)

/-- Whether a symbol has the name. -/
def containsName (table : SymbolTable) (name : String) : Bool :=
  table.byName.contains name

/-- The names of the symbols, sorted. -/
def names (table : SymbolTable) : List String :=
  table.byName.keys

/-- The keys of the sources, sorted. -/
def files (table : SymbolTable) : List String :=
  table.sources.keys

/-- The position of the symbol with an identity. -/
def positionOf? (table : SymbolTable) (id : SymbolId) : Option Nat :=
  (table.positions id.name).find? fun i => table.symbols[i]?.any (·.is id)

/-- The symbol with an identity. -/
def get? (table : SymbolTable) (id : SymbolId) : Option Symbol :=
  (table.positionOf? id).bind (table.symbols[·]?)

/-- The symbols of a file. -/
def symbolsIn (table : SymbolTable) (file : String) : List Symbol :=
  (table.byFile.getD file []).filterMap (table.symbols[·]?)

/-- The includes of a file. -/
def includesOf (table : SymbolTable) (file : String) : List String :=
  table.includes.getD file []

/-- The source of a file. -/
def source? (table : SymbolTable) (file : String) : Option Source :=
  table.sources[file]?

/-- The text of a symbol's lines in the stored source, or its own body if there is none. -/
def textOf (table : SymbolTable) (s : Symbol) : Text :=
  match table.source? s.file with
  | some source => source.lines s.startLine s.endLine
  | none => s.body.toList

/-- The code of a symbol's lines in the stored source, or its own body if there is none. -/
def codeOf (table : SymbolTable) (s : Symbol) : Text :=
  match table.source? s.file with
  | some source => source.codeLines s.startLine s.endLine
  | none => s.body.toList

/-- The number of symbols of a kind. -/
def countKind (table : SymbolTable) (kind : SymbolKind) : Nat :=
  table.symbols.countP (·.kind == kind)

/-- The number of functions. -/
def functionCount (table : SymbolTable) : Nat :=
  table.countKind .function

/-- The number of structs and classes. -/
def structCount (table : SymbolTable) : Nat :=
  table.countKind .structOrClass

/-- The bytes of a symbol in the fingerprint: file and name with a zero after each, the kind, and the
lines in four bytes each. -/
def symbolBytes (s : Symbol) : List UInt8 :=
  s.file.toUTF8.toList ++ 0 :: s.name.toUTF8.toList ++ 0 :: s.kind.code.toUTF8.toList ++
    Digest.littleEndian s.startLine 4 ++ Digest.littleEndian s.endLine 4

/-- The bytes that the fingerprint is a digest of: the symbols, then each source's key and content. -/
def fingerprintBytes (table : SymbolTable) : List UInt8 :=
  table.symbols.flatMap symbolBytes ++
    table.sources.toList.flatMap fun (key, source) =>
      key.toUTF8.toList ++ source.contentHash.toUTF8.toList

/-- A digest of the symbols and of the contents of the sources. -/
def fingerprint (table : SymbolTable) : String :=
  Digest.sha256Hex table.fingerprintBytes

end SymbolTable

end CodeAtlas
