import CodeAtlas.Limits
import CodeAtlas.SymbolTable

/-!
# The call graph

A symbol calls the names that its code mentions, as far as the table knows them. A mention is a whole
identifier; the mentions of one name make one edge.

* `mentions`: the identifiers of a text, with their offsets and lines.
* `SymbolTable.callEdges`: the edges of a symbol, in the order of first mention.
* `CallGraph`: a table with the edges of all its symbols.
* `CallGraph.resolve`: the symbols that a call may reach, those of the caller's file before all others.
-/

namespace CodeAtlas

/-- Whether an identifier can start with a character. -/
def isIdentifierStart (c : Char) : Bool :=
  Text.isAsciiStart c || c == '$'

/-- Whether an identifier can go on with a character. -/
def isIdentifierPart (c : Char) : Bool :=
  Text.isWord c || c == '$'

/-- An identifier in a text. -/
structure Mention where
  /-- The offset of its first character. -/
  offset : Nat
  /-- The line it stands on. -/
  line : Nat
  /-- Its characters. -/
  word : Text
deriving DecidableEq, Repr

/-- The identifiers of a text that stands at an offset on a line. `begun` is the identifier that was begun
before the text, as far as it goes. -/
def mentionsFrom (offset line : Nat) (begun : Option Mention) : Text → List Mention
  | [] => begun.toList
  | c :: rest =>
    let next := offset + c.utf8Size
    let nextLine := if c == '\n' then line + 1 else line
    match begun with
    | some m =>
      if isIdentifierPart c then
        mentionsFrom next nextLine (some { m with word := m.word ++ [c] }) rest
      else m :: mentionsFrom next nextLine none rest
    | none =>
      if isIdentifierStart c then mentionsFrom next nextLine (some ⟨offset, line, [c]⟩) rest
      else mentionsFrom next nextLine none rest

/-- The identifiers of a text whose first line has the number `line`, from left to right. -/
def mentions (line : Nat) (text : Text) : List Mention :=
  mentionsFrom 0 line none text

/-- Adds a mention of a name on a line to the edges of a caller. -/
def addMention (caller : SymbolId) (name : String) (line : Nat) : List CallEdge → List CallEdge
  | [] => [⟨caller, name, [line]⟩]
  | edge :: rest =>
    if edge.callee == name then
      (if edge.lines.getLast? == some line then edge else { edge with lines := edge.lines ++ [line] })
        :: rest
    else edge :: addMention caller name line rest

/-- The edges of a symbol: one for each known name other than its own that its code mentions. -/
def SymbolTable.callEdges (table : SymbolTable) (s : Symbol) : List CallEdge :=
  (mentions s.startLine (table.codeOf s)).foldl
    (fun edges m =>
      let name := String.ofList m.word
      if name == s.name || !table.containsName name then edges
      else addMention s.id name m.line edges)
    []

/-- A table with the edges of its symbols, and the limits on answers about them. -/
structure CallGraph where
  table : SymbolTable
  limits : Limits
  /-- The edges of each symbol, in the order of the table. -/
  edges : List (List CallEdge)
  /-- The edges are those that the table shows. -/
  edges_eq : edges = table.symbols.map table.callEdges

namespace CallGraph

/-- The call graph of a table. -/
def ofTable (table : SymbolTable) (limits : Limits) : CallGraph :=
  ⟨table, limits, table.symbols.map table.callEdges, rfl⟩

/-- The edges of the symbol at a position. -/
def edgesAt (g : CallGraph) (position : Nat) : List CallEdge :=
  g.edges[position]?.getD []

/-- The edges of a symbol; none if it is not in the table. -/
def edgesOf (g : CallGraph) (s : Symbol) : List CallEdge :=
  match g.table.positionOf? s.id with
  | some position => g.edgesAt position
  | none => []

/-- The edges to a name, by caller in the order of the table. -/
def callersOf (g : CallGraph) (name : String) : List CallEdge :=
  g.edges.flatten.filter (·.callee == name)

/-- The file of the symbol at a position. -/
def fileAt (g : CallGraph) (position : Nat) : Option String :=
  g.table.symbols[position]?.map Symbol.file

/-- The positions that a call of a name by the symbol at `caller` may reach: those in the caller's file, or
all if there are none. -/
def resolve (g : CallGraph) (caller : Nat) (callee : String) : List Nat :=
  let all := g.table.positions callee
  let near := all.filter fun i => g.fileAt i == g.fileAt caller
  if near.isEmpty then all else near

end CallGraph

end CodeAtlas
