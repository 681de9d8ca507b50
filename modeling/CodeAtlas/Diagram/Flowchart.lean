import CodeAtlas.Diagram.Basic
import CodeAtlas.Symbol

/-!
# Flowcharts

A flowchart has numbered nodes with labels, edges between them and styles of nodes. A node is known by a
key, and an edge is drawn once.

* `Flowchart.node`: the number of the node with a key, which is added if it is new.
* `Flowchart.edge`, `Flowchart.style`: adds an edge or a style unless it is there.
* `Flowchart.lines`: the lines of the chart: a header, the nodes, the edges, the styles.
-/

namespace CodeAtlas

/-- How an edge is drawn. -/
inductive Arrow where
  /-- A call, with a full line. -/
  | call
  /-- A grouping, with a dotted line. -/
  | grouping
deriving DecidableEq, Repr

/-- How an arrow is written. -/
def Arrow.token : Arrow → String
  | call => "-->"
  | grouping => "-.->"

/-- An edge between two nodes, by their numbers. -/
structure FlowEdge where
  source : Nat
  target : Nat
  arrow : Arrow
deriving DecidableEq, Repr

/-- A node of a chart. -/
structure FlowNode where
  /-- What the node is known by. -/
  key : String
  /-- What the node shows. -/
  label : String
deriving DecidableEq, Repr

/-- How a node is marked. -/
inductive NodeStyle where
  | root
  | target
  | concept
  | keyword
deriving DecidableEq, Repr

/-- How a style is written. -/
def NodeStyle.code : NodeStyle → String
  | root => "fill:#f9f,stroke:#333,stroke-width:4px"
  | target => "fill:#9f9,stroke:#333,stroke-width:2px"
  | concept => "fill:#ff9,stroke:#333,stroke-width:4px"
  | keyword => "fill:#eef,stroke:#333,stroke-width:1px"

/-- A chart of nodes and edges. The nodes are numbered from one. -/
structure Flowchart where
  direction : Direction
  nodes : List FlowNode := []
  edges : List FlowEdge := []
  styles : List (Nat × NodeStyle) := []
deriving Repr

namespace Flowchart

/-- The number of the node with a key, and the chart in which it is. -/
def node (chart : Flowchart) (key label : String) : Nat × Flowchart :=
  match chart.nodes.findIdx? (·.key == key) with
  | some i => (i + 1, chart)
  | none => (chart.nodes.length + 1, { chart with nodes := chart.nodes ++ [⟨key, label⟩] })

/-- The label of a symbol: its name above its location. -/
def symbolLabel (symbol : SymbolId) : String :=
  sanitizeLabel symbol.name ++ "<br/>" ++ sanitizeLabel symbol.location

/-- The number of the node of a symbol, and the chart in which it is. -/
def symbolNode (chart : Flowchart) (symbol : SymbolId) : Nat × Flowchart :=
  chart.node ("symbol:" ++ symbol.display) (symbolLabel symbol)

/-- The chart with an edge. -/
def edge (chart : Flowchart) (source target : Nat) (arrow : Arrow) : Flowchart :=
  let e : FlowEdge := ⟨source, target, arrow⟩
  if chart.edges.contains e then chart else { chart with edges := chart.edges ++ [e] }

/-- The chart with a style for a node. -/
def style (chart : Flowchart) (node : Nat) (style : NodeStyle) : Flowchart :=
  if chart.styles.contains (node, style) then chart
  else { chart with styles := chart.styles ++ [(node, style)] }

/-- The name of a node. -/
def nodeName (number : Nat) : String :=
  "n" ++ toString number

/-- The line of a node. -/
def nodeLine (number : Nat) (node : FlowNode) : String :=
  "    " ++ nodeName number ++ "[\"" ++ node.label ++ "\"]"

/-- The line of an edge. -/
def edgeLine (e : FlowEdge) : String :=
  "    " ++ nodeName e.source ++ " " ++ e.arrow.token ++ " " ++ nodeName e.target

/-- The line of a style. -/
def styleLine (mark : Nat × NodeStyle) : String :=
  "    style " ++ nodeName mark.1 ++ " " ++ mark.2.code

/-- The lines of the nodes, numbered from one. -/
def nodeLines (chart : Flowchart) : List String :=
  chart.nodes.zipIdx.map fun (node, i) => nodeLine (i + 1) node

/-- The lines of a chart. -/
def lines (chart : Flowchart) : List String :=
  ("graph " ++ chart.direction.code) :: chart.nodeLines ++ chart.edges.map edgeLine ++
    chart.styles.map styleLine

/-- The chart as a diagram. -/
def toDiagram (chart : Flowchart) (kind : DiagramKind) (note : Option String) : Diagram where
  kind := kind
  direction := chart.direction
  text := "\n".intercalate chart.lines
  nodeCount := chart.nodes.length
  edgeCount := chart.edges.length
  note := note

end Flowchart

/-- A diagram that only shows a note. -/
def Diagram.ofNote (kind : DiagramKind) (direction : Direction) (note : String) : Diagram :=
  ({ direction := direction : Flowchart }.node "note" (sanitizeLabel note)).2.toDiagram kind (some note)

end CodeAtlas
