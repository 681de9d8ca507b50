import CodeAtlas.Text.Case

/-!
# Symbols

A symbol is a definition found in a source: a function or a type, with the lines it spans. Its identity
is its name, its file and the line it starts on. A call edge says that a symbol mentions a name.
-/

namespace CodeAtlas

/-- What a symbol defines. -/
inductive SymbolKind where
  | function
  | structOrClass
deriving DecidableEq, Repr, Inhabited

namespace SymbolKind

/-- The name of a kind. -/
def code : SymbolKind → String
  | function => "function"
  | structOrClass => "struct_or_class"

/-- The kind with exactly this name. -/
def ofCode? (s : String) : Option SymbolKind :=
  [function, structOrClass].find? (·.code == s)

/-- A word that names no kind, in small letters. -/
structure ParseError where
  /-- The word. -/
  word : String
deriving DecidableEq, Repr

/-- The text of the error. -/
def ParseError.message (e : ParseError) : String :=
  s!"unknown symbol kind '{e.word}'"

/-- The kind that a word stands for, whatever its case. -/
def parse (s : String) : Except ParseError SymbolKind :=
  let word := Text.onString Text.lowercase s
  if ["function", "fn", "func"].contains word then .ok function
  else if ["struct_or_class", "struct", "class", "type"].contains word then .ok structOrClass
  else .error ⟨word⟩

end SymbolKind

/-- The identity of a symbol. -/
structure SymbolId where
  name : String
  file : String
  startLine : Nat
deriving DecidableEq, Repr, Inhabited

namespace SymbolId

/-- The file and the line, as a reader sees them. -/
def location (id : SymbolId) : String :=
  s!"{id.file}:{id.startLine}"

/-- The name with the location in parentheses. -/
def display (id : SymbolId) : String :=
  s!"{id.name} ({id.file}:{id.startLine})"

/-- The order of identities: by name, then by file, then by line. -/
def compare (a b : SymbolId) : Ordering :=
  (Ord.compare a.name b.name).then ((Ord.compare a.file b.file).then (Ord.compare a.startLine b.startLine))

end SymbolId

/-- A definition found in a source. -/
structure Symbol where
  name : String
  kind : SymbolKind
  file : String
  /-- The first line, counted from one. -/
  startLine : Nat
  /-- The last line. -/
  endLine : Nat
  /-- The header of the definition, on one line. -/
  signature : String
  /-- The text of the lines. -/
  body : String
deriving DecidableEq, Repr, Inhabited

namespace Symbol

/-- The identity of a symbol. -/
def id (s : Symbol) : SymbolId :=
  ⟨s.name, s.file, s.startLine⟩

/-- Whether a symbol has the given identity. -/
def is (s : Symbol) (id : SymbolId) : Bool :=
  s.startLine == id.startLine && s.name == id.name && s.file == id.file

/-- The number of lines a symbol spans; a symbol that ends before it starts has one. -/
def lineCount (s : Symbol) : Nat :=
  s.endLine - s.startLine + 1

/-- The file and the first line, as a reader sees them. -/
def location (s : Symbol) : String :=
  s!"{s.file}:{s.startLine}"

/-- Whether a line is among those of a symbol. -/
def containsLine (s : Symbol) (line : Nat) : Bool :=
  s.startLine ≤ line && line ≤ s.endLine

end Symbol

/-- A symbol mentions a known name on some lines. -/
structure CallEdge where
  caller : SymbolId
  callee : String
  /-- The lines of the mentions, ascending. -/
  lines : List Nat
deriving DecidableEq, Repr, Inhabited

/-- The line of the first mention. -/
def CallEdge.line (edge : CallEdge) : Nat :=
  edge.lines.head?.getD edge.caller.startLine

end CodeAtlas
