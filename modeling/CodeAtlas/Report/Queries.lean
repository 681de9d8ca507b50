import CodeAtlas.Query.CallPath
import CodeAtlas.Query.ClassOutline
import CodeAtlas.Query.Code
import CodeAtlas.Query.Complexity
import CodeAtlas.Query.Concept
import CodeAtlas.Query.FileDependency
import CodeAtlas.Diagram.Basic
import CodeAtlas.Report.Symbols

/-!
# Reports of queries

How the answers to queries and the diagrams are written as JSON.
-/

namespace CodeAtlas

/-- A status, tagged by its name. -/
def QueryStatus.toJson : QueryStatus → Json
  | .found => .obj [("status", .str "found")]
  | .unknownSymbol name => .obj [("status", .str "unknown_symbol"), ("name", .str name)]
  | .noPath source target =>
    .obj [("status", .str "no_path"), ("source", .str source), ("target", .str target)]
  | .noMatches query => .obj [("status", .str "no_matches"), ("query", .str query)]

/-- The limits. -/
def Limits.toJson (l : Limits) : Json :=
  .obj [("default_depth", .nat l.defaultDepth), ("max_depth", .nat l.maxDepth),
    ("max_hops", .nat l.maxHops), ("concept_depth", .nat l.conceptDepth),
    ("max_paths", .nat l.maxPaths), ("max_expansions", .nat l.maxExpansions),
    ("max_tree_nodes", .nat l.maxTreeNodes), ("snippet_length", .nat l.snippetLength)]

/-- The symbols that a keyword finds. -/
def LocateResult.toJson (r : LocateResult) : Json :=
  .obj [("keyword", .str r.keyword), ("matches", .list Symbol.toJson r.hits),
    ("status", r.status.toJson)]

namespace CallTreeNode

mutual

/-- A node with the calls below it. -/
def toJson : CallTreeNode → Json
  | ⟨symbol, kind, callLine, children, truncated, recursiveCalls⟩ =>
    .obj [("symbol", symbol.toJson), ("kind", kind.toJson), ("call_line", .option .nat callLine),
      ("children", .arr (toJsonAll children)), ("truncated", .bool truncated),
      ("recursive_calls", .strings recursiveCalls)]

/-- Some nodes with the calls below them. -/
def toJsonAll : List CallTreeNode → List Json
  | [] => []
  | node :: rest => node.toJson :: toJsonAll rest

end

end CallTreeNode

/-- A call tree. -/
def CallTree.toJson (t : CallTree) : Json :=
  .obj [("root", t.root.toJson), ("max_depth", .nat t.maxDepth)]

/-- The fields of the call trees of a name. -/
def CallTreeResult.fields (r : CallTreeResult) : List (String × Json) :=
  [("symbol", .str r.symbol), ("depth", .nat r.depth), ("trees", .list CallTree.toJson r.trees),
    ("status", r.status.toJson)]

/-- The call trees of a name. -/
def CallTreeResult.toJson (r : CallTreeResult) : Json := .obj r.fields

/-- A name on a path. -/
def PathStep.toJson (s : PathStep) : Json :=
  .obj [("name", .str s.name), ("symbol", s.symbol.toJson)]

/-- The paths between two names. -/
def PathResult.toJson (r : PathResult) : Json :=
  .obj [("source", .str r.source), ("target", .str r.target), ("max_hops", .nat r.maxHops),
    ("paths", .list (.list PathStep.toJson) r.paths), ("truncated", .bool r.truncated),
    ("status", r.status.toJson)]

/-- A symbol that a keyword gathers. -/
def ConceptMatch.toJson (m : ConceptMatch) : Json :=
  .obj [("symbol", m.symbol.toJson), ("kind", m.kind.toJson), ("matched_name", .bool m.matchedName),
    ("matched_body", .bool m.matchedBody), ("snippet", .str m.snippet)]

/-- The symbols that a keyword gathers. -/
def KeywordGroup.toJson (g : KeywordGroup) : Json :=
  .obj [("keyword", .str g.keyword), ("matches", .list ConceptMatch.toJson g.hits)]

/-- What belongs to a concept. -/
def ConceptResult.toJson (r : ConceptResult) : Json :=
  .obj [("concept", .str r.concept), ("keywords", .strings r.keywords),
    ("groups", .list KeywordGroup.toJson r.groups), ("trees", .list CallTree.toJson r.trees),
    ("total_symbols", .nat r.totalSymbols), ("status", r.status.toJson)]

/-- A class with its methods. -/
def ClassOutline.toJson (c : ClassOutline) : Json :=
  .obj [("class", c.self.toJson), ("methods", .list SymbolId.toJson c.methods),
    ("outer", .option SymbolId.toJson c.outer)]

/-- The classes that a keyword finds. -/
def ClassesResult.toJson (r : ClassesResult) : Json :=
  .obj [("keyword", .str r.keyword), ("classes", .list ClassOutline.toJson r.classes),
    ("status", r.status.toJson)]

/-- The calls from one file to another. -/
def FileEdge.toJson (e : FileEdge) : Json :=
  .obj [("from", .str e.source), ("to", .str e.target), ("calls", .nat e.calls)]

/-- The files with the calls between them. -/
def FileDependencies.toJson (d : FileDependencies) : Json :=
  .obj [("files", .strings d.files), ("edges", .list FileEdge.toJson d.edges)]

/-- The text of a symbol. -/
def CodeExtract.toJson (c : CodeExtract) : Json :=
  .obj [("symbol", c.symbol.toJson), ("kind", c.kind.toJson), ("start_line", .nat c.startLine),
    ("end_line", .nat c.endLine), ("code", .str c.code)]

/-- The texts of the symbols of a name. -/
def CodeResult.toJson (r : CodeResult) : Json :=
  .obj [("name", .str r.name), ("extracts", .list CodeExtract.toJson r.extracts),
    ("status", r.status.toJson)]

/-- A level, by its name. -/
def ComplexityLevel.toJson (level : ComplexityLevel) : Json := .str level.code

/-- The complexity of a symbol. -/
def ComplexityReport.toJson (r : ComplexityReport) : Json :=
  .obj [("symbol", r.symbol.toJson), ("total_lines", .nat r.totalLines),
    ("code_lines", .nat r.codeLines), ("branch_points", .nat r.branchPoints),
    ("call_sites", .nat r.callSites), ("cyclomatic", .nat r.cyclomatic), ("score", .nat r.score),
    ("level", r.level.toJson)]

/-- The fields of a diagram. -/
def Diagram.fields (d : Diagram) : List (String × Json) :=
  [("kind", .str d.kind.code), ("direction", .str d.direction.code), ("text", .str d.text),
    ("node_count", .nat d.nodeCount), ("edge_count", .nat d.edgeCount),
    ("note", .option .str d.note)]

/-- A diagram. -/
def Diagram.toJson (d : Diagram) : Json := .obj d.fields

end CodeAtlas
