import CodeAtlas.Command.Basic
import CodeAtlas.Diagram.Calls
import CodeAtlas.Diagram.Classes
import CodeAtlas.Diagram.Files
import CodeAtlas.Diagram.Sequence
import CodeAtlas.Index
import CodeAtlas.Layout
import CodeAtlas.Report.Queries
import CodeAtlas.Report.Scans

/-!
# Running commands

A command scans its repository, asks one query and answers with a text: JSON, a table or a diagram.
Nothing is kept between commands.

* `Answer`: the text of an answer with the lines of the log about it.
* `Command.answer`: the answer of a command about an index.
* `Invocation.run`: scans the repository and answers.
-/

namespace CodeAtlas

/-- The text of an answer, with the lines of the log about it. -/
structure Answer where
  text : String
  log : List LogLine := []
deriving DecidableEq, Repr

/-- The files, the variables and the time that a command sees. -/
structure Workspace where
  files : FileSystem
  env : Variables := {}
  time : String := ""

/-- A repository that could not be scanned. -/
structure CommandFailure where
  path : String
  cause : RootError
deriving DecidableEq, Repr

/-- The text of a failure. -/
def CommandFailure.message (f : CommandFailure) : String :=
  s!"Failed to scan {f.path}: {f.cause.message}"

/-- A line of a number of dashes. -/
def rule (width : Nat) : String :=
  String.ofList (List.replicate width '-')

/-- The text of a diagram, with its note as a comment in front. -/
def Diagram.noted (d : Diagram) : String :=
  match d.note with
  | some note => s!"%% {note}\n{d.text}"
  | none => d.text

/-- The warning about a query that found nothing. -/
def QueryStatus.log (status : QueryStatus) : List LogLine :=
  if status.isFound then [] else [.warn status.display]

/-- A row of the table of symbols. -/
def symbolRow (name kind file lines : String) : String :=
  s!"{Layout.padRight 40 name} {Layout.padRight 15 kind} {Layout.padRight 50 file} {lines}\n"

/-- The table of the symbols that a keyword finds. -/
def LocateResult.table (r : LocateResult) : String :=
  if r.hits.isEmpty then s!"No symbols found matching '{r.keyword}'"
  else
    let row := fun (s : Symbol) =>
      symbolRow (Layout.cutEnd 40 s.name) (Layout.cutEnd 15 s.kind.code) (Layout.cutStart 50 s.file)
        s!"{s.startLine}-{s.endLine}"
    symbolRow "NAME" "KIND" "FILE" "LINES" ++ rule 110 ++ "\n" ++ "".intercalate (r.hits.map row) ++
      s!"\nFound {r.hits.length} symbols"

/-- The texts of the symbols of a name, each under its location. -/
def CodeResult.listing (r : CodeResult) : String :=
  if r.extracts.isEmpty then s!"No symbol named '{r.name}'"
  else
    "\n\n".intercalate (r.extracts.map fun e =>
      s!"// {e.symbol.name} ({e.symbol.file} {e.startLine}-{e.endLine})\n{e.code}")

/-- A row of the table of complexities. -/
def complexityRow (symbol lines code branches calls score level : String) : String :=
  let counts :=
    [Layout.padLeft 6 lines, Layout.padLeft 6 code, Layout.padLeft 8 branches, Layout.padLeft 6 calls,
      Layout.padLeft 6 score]
  s!"{Layout.padRight 50 symbol} " ++ " ".intercalate counts ++ s!"  {level}\n"

/-- The table of the complexities of the symbols of a name. -/
def complexityTable (name : String) (reports : List ComplexityReport) : String :=
  if reports.isEmpty then s!"No symbol named '{name}'"
  else
    let row := fun (r : ComplexityReport) =>
      complexityRow (Layout.cutEnd 50 r.symbol.display) (toString r.totalLines) (toString r.codeLines)
        (toString r.branchPoints) (toString r.callSites) (toString r.score) r.level.display
    complexityRow "SYMBOL" "LINES" "CODE" "BRANCHES" "CALLS" "SCORE" "LEVEL" ++ rule 100 ++ "\n" ++
      "".intercalate (reports.map row) ++
      "\nScores count branch tokens and lines; they are not control-flow exact"

/-- The includes of each file. -/
def IncludeMap.toJson (includes : IncludeMap) : Json :=
  .obj (includes.toList.map fun (file, targets) => (file, .strings targets))

namespace Command

/-- The answer of a command about an index, as JSON if that is wanted. -/
def answer (command : Command) (json : Bool) (outcome : ScanOutcome) : Answer :=
  let g := CallGraph.ofTable outcome.table {}
  let write := fun (value : Json) (text : String) => if json then value.pretty else text
  match command with
  | .scan => ⟨write outcome.manifest.toJson outcome.manifest.text, []⟩
  | .locate keyword kind =>
    let r := g.locate keyword kind
    ⟨write r.toJson r.table, [.info r.summary]⟩
  | .tree symbol depth direction sequence =>
    let r := g.callTree symbol (depth.getD g.limits.defaultDepth)
    let diagram := if sequence then r.sequenceDiagram else r.diagram direction
    ⟨write r.toJson diagram.noted, .info r.summary :: r.status.log⟩
  | .path source target maxHops direction =>
    let r := g.pathSearch source target maxHops
    let stopped :=
      if r.truncated then
        [LogLine.warn s!"Path search stopped after {r.paths.length} paths; more may exist"]
      else []
    ⟨write r.toJson (r.diagram direction).noted, .info r.summary :: r.status.log ++ stopped⟩
  | .concept label keywords direction =>
    let r := g.concept label keywords
    ⟨write r.toJson (r.diagram direction).noted, .info r.summary :: r.status.log⟩
  | .code symbol =>
    let r := g.extractCodeByName symbol
    ⟨write r.toJson r.listing, []⟩
  | .complexity symbol =>
    let reports := (g.table.occurrences symbol).filterMap fun s => g.complexity? s.id
    ⟨write (.list ComplexityReport.toJson reports) (complexityTable symbol reports),
      [.info s!"Scored {reports.length} occurrence(s) of '{symbol}'"]⟩
  | .classes keyword =>
    let r := g.classOutline (keyword.getD "")
    ⟨write r.toJson r.diagram.noted, .info r.summary :: r.status.log⟩
  | .deps true direction =>
    let includes : IncludeMap := g.table.includes
    ⟨write includes.toJson (includes.diagram direction).noted, []⟩
  | .deps false direction =>
    let r := g.fileDependencies
    ⟨write r.toJson (r.diagram direction).noted, []⟩

end Command

/-- The configuration of a scan for a command. -/
def RepoArgs.config (repo : RepoArgs) (env : Variables) : Config :=
  let config := Config.ofVariables env
  if repo.extensions.isEmpty then config else config.withExtensions repo.extensions

/-- Scans the repository of a command and answers; the text ends with a line feed. -/
def Invocation.run (invocation : Invocation) (workspace : Workspace) :
    Except CommandFailure Answer :=
  let repo := invocation.repo
  match workspace.files.scan (repo.config workspace.env) workspace.time repo.path with
  | .error cause => .error ⟨repo.path, cause⟩
  | .ok scanned =>
    let m := scanned.outcome.manifest
    let loaded := LogLine.info s!"Loaded {m.symbolCount} symbols from {m.filesIndexed} files"
    let answer := invocation.command.answer repo.json scanned.outcome
    .ok ⟨answer.text ++ "\n", scanned.log ++ loaded :: answer.log⟩

end CodeAtlas
