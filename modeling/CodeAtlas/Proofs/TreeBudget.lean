import CodeAtlas.Proofs.CallTreeNodes

/-!
# What the budget cuts off a call tree

The nodes of a call tree come out of one budget, which goes from sibling to sibling and down to their children.
This file says what a tree is that had too small a budget: the beginning of the tree that had enough, node by
node in preorder.

* `CallTreeNode.outline`: the nodes of a tree in preorder, each with its depth;
* `CallGraph.listing`: the nodes that the calls of a position ask for, without any budget;
* `Spends`, `Spends.append`: a part of a tree shows as much of its listing as its budget allows, and hands on
  the rest;
* `Growth.ofPositions_spends`, `Growth.ofEdges_spends`, `CallGraph.grow_spends`: one edge, all edges of a node, and
  a whole tree;
* `CallGraph.callTree_cut_in_preorder`: a smaller budget keeps the first nodes.
-/

namespace CodeAtlas

/-! ### Trees in preorder -/

/-- What a node of a call tree tells, apart from its children. -/
structure OutlineEntry where
  symbol : SymbolId
  kind : SymbolKind
  callLine : Option Nat
  /-- The number of calls from the root. -/
  depth : Nat
  recursiveCalls : List String
deriving DecidableEq, Repr

namespace CallTreeNode

mutual

/-- The nodes of a tree in preorder, where the root is at the given level. -/
def outline (level : Nat) : CallTreeNode → List OutlineEntry
  | ⟨symbol, kind, callLine, children, _, recursiveCalls⟩ =>
    ⟨symbol, kind, callLine, level, recursiveCalls⟩ :: outlineAll (level + 1) children

/-- The nodes of some trees in preorder, one tree after the other. -/
def outlineAll (level : Nat) : List CallTreeNode → List OutlineEntry
  | [] => []
  | node :: rest => node.outline level ++ outlineAll level rest

end

theorem outlineAll_append (level : Nat) (nodes others : List CallTreeNode) :
    outlineAll level (nodes ++ others) = outlineAll level nodes ++ outlineAll level others := by
  induction nodes with
  | nil => rfl
  | cons node rest ih => rw [List.cons_append, outlineAll, ih, outlineAll, List.append_assoc]

mutual

/-- An outline has an entry for each node. -/
theorem length_outline (level : Nat) (node : CallTreeNode) : (node.outline level).length = node.size := by
  obtain ⟨symbol, kind, callLine, children, truncated, recursiveCalls⟩ := node
  rw [outline, List.length_cons, length_outlineAll, size, Nat.add_comm]

theorem length_outlineAll (level : Nat) (nodes : List CallTreeNode) :
    (outlineAll level nodes).length = sizeAll nodes := by
  cases nodes with
  | nil => rfl
  | cons node rest => rw [outlineAll, List.length_append, length_outline, length_outlineAll, sizeAll]

end

mutual

/-- A walk through a tree visits the nodes in the order of the outline. -/
theorem map_outline (level : Nat) (node : CallTreeNode) (parent : Option CallTreeNode) :
    (node.outline level).map (fun e => (e.symbol, e.callLine, e.recursiveCalls))
      = (node.visits parent).map fun v => (v.1.symbol, v.1.callLine, v.1.recursiveCalls) := by
  obtain ⟨symbol, kind, callLine, children, truncated, recursiveCalls⟩ := node
  rw [outline, List.map_cons, visits, List.map_cons, map_outlineAll]

theorem map_outlineAll (level : Nat) (nodes : List CallTreeNode) (parent : Option CallTreeNode) :
    (outlineAll level nodes).map (fun e => (e.symbol, e.callLine, e.recursiveCalls))
      = (visitsAll parent nodes).map fun v => (v.1.symbol, v.1.callLine, v.1.recursiveCalls) := by
  cases nodes with
  | nil => rfl
  | cons node rest =>
    rw [outlineAll, List.map_append, visitsAll, List.map_append, map_outline level node parent,
      map_outlineAll level rest parent]

end

end CallTreeNode

/-! ### Spending a budget -/

/-- Of the entries that are `wanted`, as many are `shown` as the budget allows; `left` is what remains of it. -/
structure Spends (wanted : List OutlineEntry) (budget : Nat) (shown : List OutlineEntry) (left : Nat) : Prop where
  shown : shown = wanted.take budget
  left : left = budget - wanted.length

theorem Spends.nil (budget : Nat) : Spends [] budget [] budget :=
  ⟨List.take_nil.symm, rfl⟩

/-- Without a budget nothing is shown. -/
theorem Spends.spent (wanted : List OutlineEntry) : Spends wanted 0 [] 0 :=
  ⟨rfl, (Nat.zero_sub _).symm⟩

/-- Two parts in a row: the second one gets what the first one leaves. -/
theorem Spends.append {wanted wanted' shown shown' : List OutlineEntry} {budget left left' : Nat}
    (h : Spends wanted budget shown left) (h' : Spends wanted' left shown' left') :
    Spends (wanted ++ wanted') budget (shown ++ shown') left' := by
  refine ⟨?_, ?_⟩
  · rw [h.shown, h'.shown, h.left, List.take_append]
  · rw [h'.left, h.left, List.length_append, Nat.sub_sub]

namespace Growth

variable {level : Nat}

/-- **One edge.** If each child spends what it gets, so do the children of the positions that an edge reaches. -/
theorem ofPositions_spends {child : Nat → Nat → CallTreeNode × Nat} {wanted : Nat → List OutlineEntry}
    (hchild : ∀ i budget, 0 < budget →
      Spends (wanted i) budget ((child i budget).1.outline level) (child i budget).2)
    (positions : List Nat) :
    ∀ budget, Spends (positions.flatMap wanted) budget
      (CallTreeNode.outlineAll level (ofPositions child budget positions).children)
      (ofPositions child budget positions).budget := by
  induction positions with
  | nil => intro budget; exact Spends.nil budget
  | cons i rest ih =>
    intro budget
    rw [ofPositions]
    by_cases hspent : budget = 0
    · rw [if_pos (by simpa using hspent), hspent]
      exact Spends.spent _
    · rw [if_neg (by simpa using hspent), List.flatMap_cons]
      exact (hchild i budget (Nat.pos_of_ne_zero hspent)).append (ih (child i budget).2)

/-- At the full depth no edge spends anything. -/
theorem ofEdges_none_spends (onWay : List String) (budget : Nat) (edges : List CallEdge) :
    Spends [] budget (CallTreeNode.outlineAll level (ofEdges none onWay budget edges).children)
      (ofEdges none onWay budget edges).budget := by
  induction edges with
  | nil => exact Spends.nil budget
  | cons edge rest ih =>
    rw [ofEdges]
    split
    · exact ih
    · exact ih

/-- **All edges.** If each edge spends what it gets, so do the edges of a node together. An edge to a name on the
way asks for nothing. -/
theorem ofEdges_spends {below : CallEdge → Nat → Growth} {wanted : CallEdge → List OutlineEntry}
    (hbelow : ∀ edge budget, Spends (wanted edge) budget
      (CallTreeNode.outlineAll level (below edge budget).children) (below edge budget).budget)
    (onWay : List String) (edges : List CallEdge) :
    ∀ budget, Spends ((edges.filter fun e => !onWay.contains e.callee).flatMap wanted) budget
      (CallTreeNode.outlineAll level (ofEdges (some below) onWay budget edges).children)
      (ofEdges (some below) onWay budget edges).budget := by
  induction edges with
  | nil => intro budget; exact Spends.nil budget
  | cons edge rest ih =>
    intro budget
    rw [ofEdges]
    by_cases hon : onWay.contains edge.callee = true
    · rw [if_pos hon, List.filter_cons_of_neg (by rw [hon]; decide)]
      exact ih budget
    rw [if_neg hon, List.filter_cons_of_pos (by simpa using hon), List.flatMap_cons]
    dsimp only
    by_cases hspent : budget = 0
    · -- the edge is skipped, and the edges after it have no more than it had
      subst hspent
      rw [if_pos (by rfl)]
      exact (Spends.spent (wanted edge)).append (ih 0)
    · rw [if_neg (by simpa using hspent)]
      dsimp only
      rw [CallTreeNode.outlineAll_append]
      exact (hbelow edge budget).append (ih _)

end Growth

/-! ### The whole tree -/

namespace CallGraph

variable (g : CallGraph)

/-- What the node of a position tells, below a way with the given names. -/
def entryAt (level : Nat) (onWay : List String) (callLine : Option Nat) (position : Nat) : OutlineEntry :=
  let s := g.table.symbols[position]?.getD default
  ⟨s.id, s.kind, callLine, level,
    ((g.edgesAt position).map CallEdge.callee).filter fun name => (s.name :: onWay).contains name⟩

/-- All nodes that the calls at a position ask for in preorder, down to `depth` calls below it. -/
def listing (depth level : Nat) (onWay : List String) (callLine : Option Nat) (position : Nat) :
    List OutlineEntry :=
  g.entryAt level onWay callLine position ::
    match depth with
    | 0 => []
    | depth + 1 =>
      let onWay := (g.table.symbols[position]?.getD default).name :: onWay
      ((g.edgesAt position).filter fun e => !onWay.contains e.callee).flatMap fun e =>
        (g.resolve position e.callee).flatMap fun i => listing depth (level + 1) onWay (some e.line) i

/-- **A tree spends its budget in preorder.** Its root is there even if the budget is zero. -/
theorem grow_spends (depth : Nat) :
    ∀ (level : Nat) (onWay : List String) (callLine : Option Nat) (position budget : Nat),
      Spends (g.listing depth level onWay callLine position) (max budget 1)
        ((g.grow depth onWay callLine position budget).1.outline level)
        (g.grow depth onWay callLine position budget).2 := by
  -- the root takes one off the budget, and the calls below it share what is left
  have hroot : ∀ {entry : OutlineEntry} {wanted shown : List OutlineEntry} {budget left : Nat},
      Spends wanted (budget - 1) shown left →
      Spends (entry :: wanted) (max budget 1) (entry :: shown) left := by
    intro entry wanted shown budget left h
    rw [show max budget 1 = budget - 1 + 1 from by omega]
    refine ⟨?_, ?_⟩
    · rw [List.take_succ_cons, h.shown]
    · rw [h.left, List.length_cons, Nat.add_sub_add_right]
  induction depth with
  | zero =>
    intro level onWay callLine position budget
    rw [grow, CallTreeNode.outline, Growth.ofEdges_recursiveCalls]
    exact hroot (Growth.ofEdges_none_spends _ _ _)
  | succ depth ih =>
    intro level onWay callLine position budget
    rw [grow, CallTreeNode.outline, Growth.ofEdges_recursiveCalls]
    refine hroot (Growth.ofEdges_spends (fun edge b => ?_) _ _ _)
    refine Growth.ofPositions_spends (fun i b hb => ?_) _ b
    have hchild := ih (level + 1) ((g.table.symbols[position]?.getD default).name :: onWay) (some edge.line) i b
    rwa [Nat.max_eq_left hb] at hchild

/-- The same graph with another budget for the nodes of a call tree. -/
def withTreeNodes (nodes : Nat) : CallGraph :=
  { g with limits := { g.limits with maxTreeNodes := nodes } }

/-- The budget does not run out while the call tree of a position is built: some of it is left in the end. -/
def TreeFits (depth position : Nat) : Prop :=
  (g.grow depth [] none position g.limits.maxTreeNodes).2 ≠ 0

variable {g}

/-- Trees grow alike whatever the limits are, since the budget is handed to them. -/
theorem grow_withTreeNodes (nodes depth : Nat) :
    ∀ (onWay : List String) (callLine : Option Nat) (position budget : Nat),
      (g.withTreeNodes nodes).grow depth onWay callLine position budget
        = g.grow depth onWay callLine position budget := by
  induction depth with
  | zero => intro onWay callLine position budget; rfl
  | succ depth ih =>
    intro onWay callLine position budget
    have hchild : (g.withTreeNodes nodes).grow depth = g.grow depth := by
      funext onWay callLine position budget
      exact ih onWay callLine position budget
    rw [grow, hchild, grow]
    rfl

theorem outline_treeAt (nodes depth position : Nat) :
    ((g.withTreeNodes nodes).treeAt depth position).root.outline 0
      = (g.listing depth 0 [] none position).take (max nodes 1) := by
  show ((g.withTreeNodes nodes).grow depth [] none position nodes).1.outline 0 = _
  rw [grow_withTreeNodes]
  exact (g.grow_spends depth 0 [] none position nodes).shown

/-- A budget that does not run out is greater than the number of nodes that are asked for. -/
theorem treeFits_iff (nodes depth position : Nat) :
    (g.withTreeNodes nodes).TreeFits depth position
      ↔ (g.listing depth 0 [] none position).length < max nodes 1 := by
  show ((g.withTreeNodes nodes).grow depth [] none position nodes).2 ≠ 0 ↔ _
  rw [grow_withTreeNodes, (g.grow_spends depth 0 [] none position nodes).left]
  omega

/-- **The budget cuts a call tree in preorder.** For every position of a table, every depth and every budget, the nodes
of the call tree in preorder, with their symbols, lines, depths and recursive calls, are the first nodes of the
tree that is built with a budget that does not run out, and such budgets there are. There are no more nodes than the
budget says, the root apart, and a walk visits them in this order. -/
theorem callTree_cut_in_preorder (g : CallGraph) (depth position : Nat) :
    (∃ enough, ∀ whole, enough ≤ whole → (g.withTreeNodes whole).TreeFits depth position) ∧
    (∀ whole, (g.withTreeNodes whole).TreeFits depth position → ∀ nodes,
      ((g.withTreeNodes nodes).treeAt depth position).root.outline 0
        = (((g.withTreeNodes whole).treeAt depth position).root.outline 0).take (max nodes 1)) ∧
    ∀ nodes, ((g.withTreeNodes nodes).treeAt depth position).root.size ≤ max nodes 1 ∧
      (((g.withTreeNodes nodes).treeAt depth position).root.outline 0).map
          (fun e => (e.symbol, e.callLine, e.recursiveCalls))
        = (((g.withTreeNodes nodes).treeAt depth position).root.visits none).map
            fun v => (v.1.symbol, v.1.callLine, v.1.recursiveCalls) := by
  refine ⟨?_, ?_, ?_⟩
  · refine ⟨(g.listing depth 0 [] none position).length + 1, fun whole hwhole => ?_⟩
    rw [treeFits_iff]
    omega
  · intro whole hfits nodes
    rw [treeFits_iff] at hfits
    rw [outline_treeAt, outline_treeAt, List.take_of_length_le (Nat.le_of_lt hfits)]
  · intro nodes
    refine ⟨?_, CallTreeNode.map_outline 0 _ none⟩
    rw [← CallTreeNode.length_outline 0, outline_treeAt, List.length_take]
    exact Nat.min_le_left _ _

/-- The tree of `twins` has five nodes. With three, it keeps the first three of them. -/
theorem twins_cut_in_preorder :
    (twins.withTreeNodes 20).TreeFits 5 0 ∧
      ((twins.withTreeNodes 3).treeAt 5 0).root.outline 0
        = (((twins.withTreeNodes 20).treeAt 5 0).root.outline 0).take 3 := by
  have hfits : (twins.withTreeNodes 20).TreeFits 5 0 := by
    unfold TreeFits
    decide +kernel
  exact ⟨hfits, (callTree_cut_in_preorder twins 5 0).2.1 20 hfits 3⟩

end CallGraph

end CodeAtlas
