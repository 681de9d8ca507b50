import CodeAtlas.CallGraph
import CodeAtlas.Query.Status

/-!
# Call trees

The tree of calls below a symbol, to a depth and with a number of nodes that the limits bound. A name that
is already on the way from the root is not followed again. When the nodes run out, the tree stops growing
in preorder.

* `CallTreeNode`: a symbol on the tree with the calls below it.
* `CallGraph.grow`: the node of a position, and how many nodes are left after it.
* `CallGraph.callTree`: the trees of all symbols of a name.
-/

namespace CodeAtlas

/-- A symbol in a call tree. -/
structure CallTreeNode where
  symbol : SymbolId
  kind : SymbolKind
  /-- The line of the first call in the parent; none at the root. -/
  callLine : Option Nat
  children : List CallTreeNode
  /-- Whether calls are missing because of the depth or the number of nodes. -/
  truncated : Bool
  /-- The called names that are already on the way from the root. -/
  recursiveCalls : List String
deriving Repr

namespace CallTreeNode

mutual

/-- The number of nodes of a tree. -/
def size : CallTreeNode → Nat
  | ⟨_, _, _, children, _, _⟩ => 1 + sizeAll children

/-- The number of nodes of some trees. -/
def sizeAll : List CallTreeNode → Nat
  | [] => 0
  | node :: rest => node.size + sizeAll rest

end

mutual

/-- The number of calls on the longest way down. -/
def height : CallTreeNode → Nat
  | ⟨_, _, _, children, _, _⟩ => heightBelow children

/-- The height of a node with the given children. -/
def heightBelow : List CallTreeNode → Nat
  | [] => 0
  | node :: rest => max (node.height + 1) (heightBelow rest)

end

mutual

/-- The nodes of a tree, each before its children, with the parent of each. -/
def visits (parent : Option CallTreeNode) : CallTreeNode → List (CallTreeNode × Option CallTreeNode)
  | ⟨symbol, kind, callLine, children, truncated, recursiveCalls⟩ =>
    let node : CallTreeNode := ⟨symbol, kind, callLine, children, truncated, recursiveCalls⟩
    (node, parent) :: visitsAll (some node) children

/-- The nodes of some trees in order. -/
def visitsAll (parent : Option CallTreeNode) :
    List CallTreeNode → List (CallTreeNode × Option CallTreeNode)
  | [] => []
  | node :: rest => node.visits parent ++ visitsAll parent rest

end

end CallTreeNode

/-- A call tree with the depth that it was built to. -/
structure CallTree where
  root : CallTreeNode
  maxDepth : Nat
deriving Repr

/-- The call trees of a name. -/
structure CallTreeResult where
  symbol : String
  depth : Nat
  trees : List CallTree
  status : QueryStatus
deriving Repr

/-- What the calls of a node add to it. -/
structure Growth where
  children : List CallTreeNode
  truncated : Bool
  recursiveCalls : List String
  /-- The number of nodes that are left. -/
  budget : Nat

namespace Growth

/-- The nodes of the positions that a call may reach, as far as the budget goes. -/
def ofPositions (child : Nat → Nat → CallTreeNode × Nat) (budget : Nat) : List Nat → Growth
  | [] => ⟨[], false, [], budget⟩
  | position :: rest =>
    if budget == 0 then ⟨[], true, [], 0⟩
    else
      let (node, budget) := child position budget
      let others := ofPositions child budget rest
      { others with children := node :: others.children }

/-- What the edges of a node add to it. `follow` gives the nodes below an edge, if the depth allows
any. -/
def ofEdges (follow : Option (CallEdge → Nat → Growth)) (onWay : List String) (budget : Nat) :
    List CallEdge → Growth
  | [] => ⟨[], false, [], budget⟩
  | edge :: rest =>
    if onWay.contains edge.callee then
      let others := ofEdges follow onWay budget rest
      { others with recursiveCalls := edge.callee :: others.recursiveCalls }
    else
      match follow with
      | none => { ofEdges follow onWay budget rest with truncated := true }
      | some below =>
        if budget == 0 then { ofEdges follow onWay budget rest with truncated := true }
        else
          let first := below edge budget
          let others := ofEdges follow onWay first.budget rest
          ⟨first.children ++ others.children, first.truncated || others.truncated,
            others.recursiveCalls, others.budget⟩

end Growth

namespace CallGraph

/-- The node of a position with the calls below it, to the given depth, and how many nodes are left.
`onWay` holds the names above the node. -/
def grow (g : CallGraph) (depth : Nat) (onWay : List String) (callLine : Option Nat) (position : Nat)
    (budget : Nat) : CallTreeNode × Nat :=
  let s := g.table.symbols[position]?.getD default
  let onWay := s.name :: onWay
  let growth :=
    match depth with
    | 0 => Growth.ofEdges none onWay (budget - 1) (g.edgesAt position)
    | depth + 1 =>
      let below := fun (edge : CallEdge) budget =>
        Growth.ofPositions (fun i budget => g.grow depth onWay (some edge.line) i budget) budget
          (g.resolve position edge.callee)
      Growth.ofEdges (some below) onWay (budget - 1) (g.edgesAt position)
  (⟨s.id, s.kind, callLine, growth.children, growth.truncated, growth.recursiveCalls⟩, growth.budget)

/-- The call tree of the symbol at a position. -/
def treeAt (g : CallGraph) (depth position : Nat) : CallTree :=
  ⟨(g.grow depth [] none position g.limits.maxTreeNodes).1, depth⟩

/-- The call trees of all symbols of a name. -/
def callTree (g : CallGraph) (name : String) (depth : Nat) : CallTreeResult :=
  let depth := g.limits.clampDepth depth
  let roots := g.table.positions name
  ⟨name, depth, roots.map (g.treeAt depth),
    if roots.isEmpty then .unknownSymbol name else .found⟩

end CallGraph

/-- The line that the log shows for the trees. -/
def CallTreeResult.summary (r : CallTreeResult) : String :=
  match r.status with
  | .unknownSymbol _ => s!"call_tree '{r.symbol}': unknown symbol"
  | _ =>
    let nodes := CallTreeNode.sizeAll (r.trees.map (·.root))
    s!"call_tree '{r.symbol}' depth {r.depth}: {r.trees.length} tree(s), {nodes} nodes"

end CodeAtlas
