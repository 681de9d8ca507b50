/-!
# Limits

The bounds that keep the answers to queries small. A requested depth or number of hops is moved into the
range that the limits allow, which is never empty.
-/

namespace CodeAtlas

/-- Bounds on the answers to queries. -/
structure Limits where
  /-- The depth of a call tree if none is asked for. -/
  defaultDepth : Nat := 5
  /-- The greatest depth of a call tree. -/
  maxDepth : Nat := 10
  /-- The greatest number of calls on a path. -/
  maxHops : Nat := 10
  /-- The depth of the call trees of a concept, one or two. -/
  conceptDepth : Nat := 2
  /-- The greatest number of paths of one search. -/
  maxPaths : Nat := 100
  /-- The number of times that one search may extend a path. -/
  maxExpansions : Nat := 100000
  /-- The greatest number of nodes of a call tree. -/
  maxTreeNodes : Nat := 2000
  /-- The number of characters that a snippet keeps. -/
  snippetLength : Nat := 500
deriving DecidableEq, Repr, Inhabited

namespace Limits

/-- A number moved into the range from `low` to `high`. -/
def clamp (low high n : Nat) : Nat :=
  max low (min n high)

/-- The limits with another greatest depth, at least one. -/
def withMaxDepth (limits : Limits) (n : Nat) : Limits :=
  { limits with maxDepth := max n 1 }

/-- The limits with another greatest number of hops, at least one. -/
def withMaxHops (limits : Limits) (n : Nat) : Limits :=
  { limits with maxHops := max n 1 }

/-- The limits with another greatest number of paths, at least one. -/
def withMaxPaths (limits : Limits) (n : Nat) : Limits :=
  { limits with maxPaths := max n 1 }

/-- The limits with another greatest number of tree nodes, at least one. -/
def withMaxTreeNodes (limits : Limits) (n : Nat) : Limits :=
  { limits with maxTreeNodes := max n 1 }

/-- The depth that a request for `depth` gets. -/
def clampDepth (limits : Limits) (depth : Nat) : Nat :=
  clamp 1 (max limits.maxDepth 1) depth

/-- The number of hops that a request for `hops` gets. -/
def clampHops (limits : Limits) (hops : Nat) : Nat :=
  clamp 1 (max limits.maxHops 1) hops

/-- The depth of the call trees of a concept. -/
def conceptTreeDepth (limits : Limits) : Nat :=
  clamp 1 2 limits.conceptDepth

end Limits

end CodeAtlas
