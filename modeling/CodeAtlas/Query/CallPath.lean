import CodeAtlas.CallGraph
import CodeAtlas.Query.Status

/-!
# Call paths

The chains of calls from one name to another on which no name repeats. The search goes by length: all
paths of one length are extended before any longer one. It stops early when it has found enough paths or
has extended paths too often, and then the answer is marked as truncated if it may be incomplete.

* `CallGraph.adjacency`: the names that each name calls, in the order of first mention.
* `PathSearch`: the state of the search within a round.
* `simplePaths`: the paths between two names.
* `CallGraph.representatives`: a symbol for each name of a path.
* `CallGraph.pathSearch`: the answer to the query.
-/

namespace CodeAtlas

/-- A chain of names. -/
abbrev NamePath := List String

/-- A name on a path with the symbol that stands for it. -/
structure PathStep where
  name : String
  symbol : SymbolId
deriving DecidableEq, Repr

/-- The paths between two names. -/
structure PathResult where
  source : String
  target : String
  maxHops : Nat
  paths : List (List PathStep)
  /-- Whether paths may be missing because the search stopped early. -/
  truncated : Bool
  status : QueryStatus
deriving Repr

/-- The names on the paths. -/
def PathResult.namePaths (r : PathResult) : List NamePath :=
  r.paths.map (·.map PathStep.name)

/-- The paths of a search, and whether some may be missing. -/
structure FoundPaths where
  paths : List NamePath
  truncated : Bool
deriving DecidableEq, Repr

/-- What a search has come to. -/
structure PathSearch where
  /-- The paths to extend in the next round. -/
  queue : Array NamePath := #[]
  /-- The paths that reach the target. -/
  found : Array NamePath := #[]
  /-- The number of extended paths. -/
  expansions : Nat := 0

namespace PathSearch

/-- Extends a path by each of some names. `waiting` says whether more paths of the round are to come. The
search ends here if a limit is reached. -/
def extend (limits : Limits) (target : String) (waiting : Bool) (path : NamePath) (s : PathSearch) :
    List String → Except FoundPaths PathSearch
  | [] => .ok s
  | callee :: rest =>
    if path.contains callee then s.extend limits target waiting path rest
    else if limits.maxExpansions < s.expansions + 1 then .error ⟨s.found.toList, true⟩
    else
      let s := { s with expansions := s.expansions + 1 }
      let longer := path ++ [callee]
      if callee == target then
        let s := { s with found := s.found.push longer }
        if limits.maxPaths ≤ s.found.size then
          .error ⟨s.found.toList, waiting || !s.queue.isEmpty⟩
        else s.extend limits target waiting path rest
      else { s with queue := s.queue.push longer }.extend limits target waiting path rest

/-- Extends the paths of a round. -/
def round (limits : Limits) (adjacency : Dict (List String)) (target : String) (s : PathSearch) :
    List NamePath → Except FoundPaths PathSearch
  | [] => .ok s
  | path :: rest => do
    let callees := (path.getLast?.bind (adjacency[·]?)).getD []
    let s ← s.extend limits target (!rest.isEmpty) path callees
    s.round limits adjacency target rest

/-- Extends the given paths for at most `hops` rounds. -/
def rounds (limits : Limits) (adjacency : Dict (List String)) (target : String) (s : PathSearch)
    (paths : List NamePath) : (hops : Nat) → Except FoundPaths PathSearch
  | 0 => .ok s
  | hops + 1 =>
    if paths.isEmpty then .ok s
    else do
      let s ← s.round limits adjacency target paths
      { s with queue := #[] }.rounds limits adjacency target s.queue.toList hops

end PathSearch

/-- The simple paths between two names with at most `hops` calls, the shorter ones first. -/
def simplePaths (limits : Limits) (adjacency : Dict (List String)) (source target : String)
    (hops : Nat) : FoundPaths :=
  if source == target then ⟨[[source]], false⟩
  else
    match PathSearch.rounds limits adjacency target {} [[source]] hops with
    | .ok s => ⟨s.found.toList, false⟩
    | .error stopped => stopped

/-- Adds names to a list, each unless it is there. -/
def addNames (names : List String) (more : List String) : List String :=
  more.foldl (fun names name => if names.contains name then names else names ++ [name]) names

namespace CallGraph

/-- The names that each name calls. -/
def adjacency (g : CallGraph) : Dict (List String) :=
  (g.table.symbols.zip g.edges).foldl
    (fun d (s, edges) => d.insert s.name (addNames (d.getD s.name []) (edges.map CallEdge.callee))) ∅

/-- Whether the symbol at a position calls a name. -/
def calls (g : CallGraph) (position : Nat) (name : String) : Bool :=
  (g.edgesAt position).any (·.callee == name)

/-- Picks a symbol for each name: one that the symbol before calls, if it can, and of those one that calls
the next name, if there is one. -/
def representativesAfter (g : CallGraph) (previous : Option Nat) : NamePath → List PathStep
  | [] => []
  | name :: rest =>
    let candidates :=
      match previous with
      | some caller => if g.calls caller name then g.resolve caller name else g.table.positions name
      | none => g.table.positions name
    let leads := fun i => rest.head?.any (g.calls i)
    match (candidates.find? leads).or candidates.head? with
    | none => []
    | some chosen =>
      let s := g.table.symbols[chosen]?.getD default
      ⟨name, s.id⟩ :: g.representativesAfter (some chosen) rest

/-- A symbol for each name of a path. -/
def representatives (g : CallGraph) (names : NamePath) : List PathStep :=
  g.representativesAfter none names

/-- The paths between two names with at most `hops` calls. -/
def pathSearch (g : CallGraph) (source target : String) (hops : Nat) : PathResult :=
  let maxHops := g.limits.clampHops hops
  match [source, target].find? (fun name => !g.table.containsName name) with
  | some name => ⟨source, target, maxHops, [], false, .unknownSymbol name⟩
  | none =>
    let found := simplePaths g.limits g.adjacency source target maxHops
    ⟨source, target, maxHops, found.paths.map g.representatives, found.truncated,
      if found.paths.isEmpty then .noPath source target else .found⟩

end CallGraph

/-- The line that the log shows for the search. -/
def PathResult.summary (r : PathResult) : String :=
  match r.status with
  | .unknownSymbol name => s!"path_search '{r.source}' -> '{r.target}': unknown '{name}'"
  | _ =>
    let mark := if r.truncated then " (truncated)" else ""
    s!"path_search '{r.source}' -> '{r.target}' within {r.maxHops} hops: {r.paths.length} path(s){mark}"

end CodeAtlas
