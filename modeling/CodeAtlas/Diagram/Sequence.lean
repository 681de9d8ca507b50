import CodeAtlas.Diagram.Flowchart
import CodeAtlas.Query.CallTree

/-!
# Sequence diagrams

The calls of some call trees as messages between symbols, in the order in which the trees are walked.
-/

namespace CodeAtlas

/-- A message from one participant to another, by their numbers. -/
structure Message where
  source : Nat
  target : Nat
  label : String
deriving DecidableEq, Repr

/-- Participants, numbered from one, and the messages between them. -/
structure SequenceChart where
  participants : List SymbolId := []
  messages : List Message := []
deriving Repr

namespace SequenceChart

/-- The number of a symbol's participant, and the chart in which it is. -/
def participant (chart : SequenceChart) (symbol : SymbolId) : Nat × SequenceChart :=
  match chart.participants.findIdx? (· == symbol) with
  | some i => (i + 1, chart)
  | none =>
    (chart.participants.length + 1, { chart with participants := chart.participants ++ [symbol] })

/-- The text of the message for a call: the called name, and the line of the call. -/
def callLabel (node : CallTreeNode) : String :=
  sanitizeLabel node.symbol.name ++
    match node.callLine with
    | some line => s!" (line {line})"
    | none => ""

/-- Adds a node of a tree, with the message from its parent. -/
def visit (chart : SequenceChart) (visited : CallTreeNode × Option CallTreeNode) : SequenceChart :=
  let (target, chart) := chart.participant visited.1.symbol
  match visited.2 with
  | none => chart
  | some parent =>
    let (source, chart) := chart.participant parent.symbol
    { chart with messages := chart.messages ++ [⟨source, target, callLabel visited.1⟩] }

/-- The line that declares a participant. -/
def participantLine (number : Nat) (label : String) : String :=
  "    participant p" ++ toString number ++ " as " ++ label

/-- The line of a message. -/
def messageLine (m : Message) : String :=
  "    p" ++ toString m.source ++ "->>p" ++ toString m.target ++ ": " ++ m.label

/-- The lines of a chart whose participants have the given labels. -/
def linesOf (labels : List String) (messages : List Message) : List String :=
  "sequenceDiagram" :: labels.zipIdx.map (fun (label, i) => participantLine (i + 1) label) ++
    messages.map messageLine

/-- The diagram of participants with the given labels. -/
def diagramOf (labels : List String) (messages : List Message) (note : Option String) : Diagram where
  kind := .sequence
  direction := .topDown
  text := "\n".intercalate (linesOf labels messages)
  nodeCount := labels.length
  edgeCount := messages.length
  note := note

end SequenceChart

/-- The sequence chart of call trees. -/
def CallTreeResult.sequenceChart (r : CallTreeResult) : SequenceChart :=
  (r.trees.flatMap (·.root.visits none)).foldl SequenceChart.visit {}

/-- The sequence diagram of call trees. -/
def CallTreeResult.sequenceDiagram (r : CallTreeResult) : Diagram :=
  if r.trees.isEmpty then
    let note := r.status.display
    SequenceChart.diagramOf [sanitizeLabel note] [] (some note)
  else
    let chart := r.sequenceChart
    SequenceChart.diagramOf (chart.participants.map Flowchart.symbolLabel) chart.messages none

end CodeAtlas
