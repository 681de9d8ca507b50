import CodeAtlas.Diagram.Flowchart
import CodeAtlas.Query.CallPath
import CodeAtlas.Query.Concept

/-!
# Charts of calls

Flowcharts of call trees, of call paths and of concepts. A symbol is one node however often it occurs.
-/

namespace CodeAtlas

namespace Flowchart

/-- Adds a node of a tree, with the edge from its parent. -/
def visit (chart : Flowchart) (visited : CallTreeNode × Option CallTreeNode) : Flowchart :=
  let (id, chart) := chart.symbolNode visited.1.symbol
  match visited.2 with
  | none => chart
  | some parent =>
    let (parentId, chart) := chart.symbolNode parent.symbol
    chart.edge parentId id .call

/-- Adds a call tree; the result is the number of its root with the chart. -/
def tree (chart : Flowchart) (tree : CallTree) : Nat × Flowchart :=
  let (root, chart) := chart.symbolNode tree.root.symbol
  (root, (tree.root.visits none).foldl visit chart)

/-- Adds symbols; the result is their numbers with the chart. -/
def symbols (chart : Flowchart) : List SymbolId → List Nat × Flowchart
  | [] => ([], chart)
  | symbol :: rest =>
    let (id, chart) := chart.symbolNode symbol
    let (ids, chart) := chart.symbols rest
    (id :: ids, chart)

/-- Adds the calls between neighbours of a list. -/
def chain (chart : Flowchart) : List Nat → Flowchart
  | a :: b :: rest => (chart.edge a b .call).chain (b :: rest)
  | _ => chart

/-- Adds a path, with marks on its first and its last node. -/
def path (chart : Flowchart) (steps : List PathStep) : Flowchart :=
  let (ids, chart) := chart.symbols (steps.map PathStep.symbol)
  let chart := chart.chain ids
  match ids.head?, ids.getLast? with
  | some first, some last =>
    let chart := chart.style first .root
    if last == first then chart else chart.style last .target
  | _, _ => chart

/-- Adds the symbols of a keyword below its node. -/
def members (chart : Flowchart) (keyword : Nat) (symbols : List SymbolId) : Flowchart :=
  symbols.foldl
    (fun chart symbol =>
      let (id, chart) := chart.symbolNode symbol
      chart.edge keyword id .grouping)
    chart

/-- Adds a keyword below a concept, with the symbols that it gathers. -/
def keywordGroup (concept : Nat) (chart : Flowchart) (group : KeywordGroup) : Flowchart :=
  let (keyword, chart) := chart.node ("keyword:" ++ group.keyword) (sanitizeLabel group.keyword)
  ((chart.style keyword .keyword).edge concept keyword .grouping).members keyword
    (group.hits.map ConceptMatch.symbol)

end Flowchart

/-- The chart of call trees. -/
def CallTreeResult.flowchart (r : CallTreeResult) (direction : Direction) : Flowchart :=
  r.trees.foldl
    (fun chart tree =>
      let (root, chart) := chart.tree tree
      chart.style root .root)
    { direction := direction }

/-- The diagram of call trees. -/
def CallTreeResult.diagram (r : CallTreeResult) (direction : Direction) : Diagram :=
  if r.trees.isEmpty then .ofNote .callTree direction r.status.display
  else (r.flowchart direction).toDiagram .callTree none

/-- The chart of call paths. -/
def PathResult.flowchart (r : PathResult) (direction : Direction) : Flowchart :=
  r.paths.foldl Flowchart.path { direction := direction }

/-- The diagram of call paths. -/
def PathResult.diagram (r : PathResult) (direction : Direction) : Diagram :=
  if r.paths.isEmpty then .ofNote .paths direction r.status.display
  else (r.flowchart direction).toDiagram .paths none

/-- The chart of a concept: the keywords that gather symbols, and the call trees of these. -/
def ConceptResult.flowchart (r : ConceptResult) (direction : Direction) : Flowchart :=
  let (concept, chart) := { direction := direction : Flowchart }.node "concept" (sanitizeLabel r.concept)
  let groups := r.groups.filter fun group => !group.hits.isEmpty
  let chart := groups.foldl (Flowchart.keywordGroup concept) (chart.style concept .concept)
  r.trees.foldl (fun chart tree => (chart.tree tree).2) chart

/-- The diagram of a concept. -/
def ConceptResult.diagram (r : ConceptResult) (direction : Direction) : Diagram :=
  if r.totalSymbols == 0 then .ofNote .concept direction r.status.display
  else (r.flowchart direction).toDiagram .concept none

end CodeAtlas
