import CodeAtlas.CallGraph

/-!
# File dependencies

How often the symbols of one file call symbols of another.
-/

namespace CodeAtlas

/-- The calls from one file to another. -/
structure FileEdge where
  source : String
  target : String
  calls : Nat
deriving DecidableEq, Repr

/-- All files with the calls between them. -/
structure FileDependencies where
  files : List String := []
  edges : List FileEdge := []
deriving DecidableEq, Repr

/-- Whether a pair of strings comes before another, or is equal to it. -/
def pairInOrder (a b : String × String) : Bool :=
  match compare a.1 b.1 with
  | .lt => true
  | .gt => false
  | .eq => a.2 ≤ b.2

namespace CallGraph

/-- The pairs of files that the symbol at a position joins, one for each symbol of another file that it may
call. -/
def filePairsAt (g : CallGraph) (position : Nat) (s : Symbol) : List (String × String) :=
  (g.edgesAt position).flatMap fun edge =>
    (g.resolve position edge.callee).filterMap fun i =>
      match g.fileAt i with
      | some file => if file == s.file then none else some (s.file, file)
      | none => none

/-- The pairs of files that calls join, one for each call. -/
def filePairs (g : CallGraph) : List (String × String) :=
  g.table.symbols.zipIdx.flatMap fun (s, i) => g.filePairsAt i s

/-- The files and the calls between them, in the order of the files. -/
def fileDependencies (g : CallGraph) : FileDependencies :=
  let pairs := g.filePairs
  { files := g.table.files
    edges := (sortBy pairInOrder pairs).eraseReps.map fun (a, b) =>
      ⟨a, b, pairs.count (a, b)⟩ }

end CallGraph

end CodeAtlas
