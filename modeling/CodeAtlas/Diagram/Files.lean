import CodeAtlas.Diagram.Flowchart
import CodeAtlas.Query.FileDependency

/-!
# Charts of files

Flowcharts of the calls between files and of the files that they include.
-/

namespace CodeAtlas

namespace Flowchart

/-- The number of the node of a file, and the chart in which it is. -/
def fileNode (chart : Flowchart) (file : String) : Nat × Flowchart :=
  chart.node file (sanitizeLabel file)

end Flowchart

/-- The chart of the calls between files: all files, then the calls. -/
def FileDependencies.flowchart (d : FileDependencies) (direction : Direction) : Flowchart :=
  let chart := d.files.foldl (fun chart file => (chart.fileNode file).2) { direction := direction }
  d.edges.foldl
    (fun chart e =>
      let (source, chart) := chart.fileNode e.source
      let (target, chart) := chart.fileNode e.target
      chart.edge source target .call)
    chart

/-- The diagram of the calls between files. -/
def FileDependencies.diagram (d : FileDependencies) (direction : Direction) : Diagram :=
  if d.files.isEmpty then .ofNote .fileDependencies direction "no files indexed"
  else (d.flowchart direction).toDiagram .fileDependencies none

/-- What the files include, by file. -/
abbrev IncludeMap := Dict (List String)

namespace IncludeMap

/-- The first file whose key is the target or ends with a slash and the target. -/
def resolve? (includes : IncludeMap) (target : String) : Option String :=
  includes.keys.find? fun key =>
    key == target || ('/' :: target.toList).isSuffixOf key.toList

/-- Adds an edge from a file to a target: to the file that it names, or to a node outside. -/
def addTarget (includes : IncludeMap) (source : Nat) (chart : Flowchart) (target : String) :
    Flowchart :=
  let (id, chart) :=
    match includes.resolve? target with
    | some key => chart.fileNode key
    | none => chart.node ("include:" ++ target) (sanitizeLabel target)
  chart.edge source id .call

/-- Adds a file with its targets. -/
def addFile (includes : IncludeMap) (chart : Flowchart) (entry : String × List String) : Flowchart :=
  let (source, chart) := chart.fileNode entry.1
  entry.2.foldl (includes.addTarget source) chart

/-- The files that include something, with their targets. -/
def entries (includes : IncludeMap) : List (String × List String) :=
  includes.toList.filter fun (_, targets) => !targets.isEmpty

/-- The chart of the includes. -/
def flowchart (includes : IncludeMap) (direction : Direction) : Flowchart :=
  includes.entries.foldl includes.addFile { direction := direction }

/-- The diagram of the includes. -/
def diagram (includes : IncludeMap) (direction : Direction) : Diagram :=
  if includes.entries.isEmpty then .ofNote .includes direction "no includes found"
  else (includes.flowchart direction).toDiagram .includes none

end IncludeMap

end CodeAtlas
