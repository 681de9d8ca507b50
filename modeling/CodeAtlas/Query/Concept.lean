import CodeAtlas.Query.CallTree
import CodeAtlas.Query.Locate

/-!
# Concepts

A concept is a label with keywords. Each keyword gathers the symbols whose name or body contains it, and
every symbol gathered gets a small call tree.
-/

namespace CodeAtlas

/-- A symbol that a keyword gathers. -/
structure ConceptMatch where
  symbol : SymbolId
  kind : SymbolKind
  /-- Whether the name contains the keyword. -/
  matchedName : Bool
  /-- Whether the body contains the keyword. -/
  matchedBody : Bool
  /-- Some lines around the start of the symbol. -/
  snippet : String
deriving Repr

/-- The symbols that a keyword gathers. -/
structure KeywordGroup where
  keyword : String
  hits : List ConceptMatch
deriving Repr

/-- What belongs to a concept. -/
structure ConceptResult where
  concept : String
  keywords : List String
  groups : List KeywordGroup
  trees : List CallTree
  totalSymbols : Nat
  status : QueryStatus
deriving Repr

/-- The number of lines that a snippet shows before the symbol. -/
def snippetLead : Nat := 2

/-- The number of lines that a snippet shows after the first line of the symbol. -/
def snippetTrail : Nat := 10

namespace CallGraph

/-- The lines around the start of a symbol, cut to the length that the limits allow. -/
def snippet (g : CallGraph) (s : Symbol) : String :=
  let text :=
    match g.table.source? s.file with
    | some source => source.lines (max (s.startLine - snippetLead) 1) (s.startLine + snippetTrail)
    | none => s.body.toList
  String.ofList (text.take g.limits.snippetLength)

/-- The match of a keyword with a symbol, if there is one. -/
def conceptMatch? (g : CallGraph) (needle : Text) (s : Symbol) : Option ConceptMatch :=
  let inName := holdsNeedle needle s.name.toList
  let inBody := holdsNeedle needle s.body.toList
  if inName || inBody then some ⟨s.id, s.kind, inName, inBody, g.snippet s⟩ else none

/-- The positions of the symbols that a keyword gathers, with the match of each. -/
def conceptMatches (g : CallGraph) (keyword : String) : List (Nat × ConceptMatch) :=
  let needle := Text.lowercase keyword.toList
  g.table.symbols.zipIdx.filterMap fun (s, i) => (g.conceptMatch? needle s).map (i, ·)

/-- What belongs to a concept. Keywords are trimmed, and blank ones dropped. -/
def concept (g : CallGraph) (label : String) (keywords : List String) : ConceptResult :=
  let keywords := (keywords.map (Text.onString Text.trim)).filter (fun k => !k.isEmpty)
  let gathered := keywords.map fun k => (k, g.conceptMatches k)
  let members := (gathered.flatMap fun (_, hits) => hits.map (·.1)).eraseDups
  { concept := label
    keywords := keywords
    groups := gathered.map fun (k, hits) => ⟨k, hits.map (·.2)⟩
    trees := members.map (g.treeAt g.limits.conceptTreeDepth)
    totalSymbols := members.length
    status := if members.isEmpty then .noMatches (", ".intercalate keywords) else .found }

end CallGraph

/-- The line that the log shows for the concept. -/
def ConceptResult.summary (r : ConceptResult) : String :=
  s!"concept '{r.concept}' ({r.keywords.length} keywords): {r.totalSymbols} symbols"

end CodeAtlas
