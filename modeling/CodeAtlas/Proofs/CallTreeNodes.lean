import CodeAtlas.Proofs.CallEdges
import CodeAtlas.Proofs.TableOrder
import CodeAtlas.Query.CallTree

/-!
# Every node of a call tree is exact

A call tree is cut in two ways, by its depth and by the number of its nodes. This file says what each single
node still tells: its children are the first of the symbols that its calls reach, none is left out in
between, and the mark says whether the last ones are missing.

* `Growth.ofPositions_spec`, `Growth.ofEdges_some`: what one edge and all edges of a node add to it;
* `CallGraph.ExactAt`: a node tells what the calls of a position reach;
* `CallGraph.grow_exact`: every node that is grown is exact;
* `CallTreeNode.Way`, `CallGraph.way_spec`: the nodes on a way down from the root;
* `CallGraph.callTree_nodes_exact`: the nodes of the trees of a name.
-/

namespace CodeAtlas

/-! ### What the calls of a node add to it -/

namespace Growth

/-- The positions that the edges of a node should lead to, with the edge of each. -/
def wanted (reach : CallEdge → List Nat) (onWay : List String) (edges : List CallEdge) :
    List (Nat × CallEdge) :=
  (edges.filter fun e => !onWay.contains e.callee).flatMap fun e => (reach e).map fun i => (i, e)

section

variable {reach : CallEdge → List Nat} {onWay : List String} {edge : CallEdge}

theorem wanted_cons_onWay (rest : List CallEdge) (h : onWay.contains edge.callee = true) :
    wanted reach onWay (edge :: rest) = wanted reach onWay rest := by
  rw [wanted, List.filter_cons_of_neg (by rw [h]; decide), wanted]

theorem wanted_cons_new (rest : List CallEdge) (h : ¬ onWay.contains edge.callee = true) :
    wanted reach onWay (edge :: rest)
      = (reach edge).map (fun i => (i, edge)) ++ wanted reach onWay rest := by
  rw [wanted, List.filter_cons_of_pos (by simpa using h), List.flatMap_cons, wanted]

theorem mem_wanted {edges : List CallEdge} {t : Nat × CallEdge} (h : t ∈ wanted reach onWay edges) :
    t.2 ∈ edges ∧ t.2.callee ∉ onWay ∧ t.1 ∈ reach t.2 := by
  obtain ⟨e, he, ht⟩ := List.mem_flatMap.mp h
  obtain ⟨i, hi, rfl⟩ := List.mem_map.mp ht
  obtain ⟨he, hnew⟩ := List.mem_filter.mp he
  exact ⟨he, by simpa using hnew, hi⟩

end

/-- The children are grown for the first of some wanted positions, and the mark says whether any is
missing. -/
def Fills (child : CallEdge → Nat → Nat → CallTreeNode × Nat) (targets : List (Nat × CallEdge))
    (r : Growth) : Prop :=
  ∃ kept missing, targets = kept ++ missing ∧
    List.Forall₂ (fun node t => ∃ b, node = (child t.2 t.1 b).1) r.children kept ∧
    (r.truncated = true ↔ missing ≠ [])

variable {child : CallEdge → Nat → Nat → CallTreeNode × Nat} {targets : List (Nat × CallEdge)}
  {r : Growth}

theorem Fills.of_mem_children (h : Fills child targets r) {node : CallTreeNode}
    (hnode : node ∈ r.children) : ∃ t ∈ targets, ∃ b, node = (child t.2 t.1 b).1 := by
  obtain ⟨kept, missing, rfl, hchildren, -⟩ := h
  obtain ⟨n, hn, rfl⟩ := List.getElem_of_mem hnode
  have hlen : n < kept.length := hchildren.length_eq ▸ hn
  refine ⟨kept[n], List.mem_append_left missing (List.getElem_mem hlen), ?_⟩
  exact hchildren.get hn hlen

/-- What each child tells about its position, the children tell about the first positions. -/
theorem Fills.map_children {β : Type} (h : Fills child targets r) (tells : CallTreeNode → β)
    (told : Nat × CallEdge → β) (heq : ∀ t ∈ targets, ∀ b, tells (child t.2 t.1 b).1 = told t) :
    r.children.map tells <+: targets.map told ∧
      (r.truncated = true ↔ r.children.length < targets.length) := by
  obtain ⟨kept, missing, rfl, hchildren, hmark⟩ := h
  have hmap : r.children.map tells = kept.map told := by
    generalize r.children = nodes at hchildren
    clear hmark
    induction hchildren with
    | nil => rfl
    | @cons node t _ kept hnode _ ih =>
      obtain ⟨b, rfl⟩ := hnode
      rw [List.map_cons, List.map_cons, heq t List.mem_cons_self b,
        ih fun t ht => heq t (List.mem_cons_of_mem _ ht)]
  constructor
  · rw [hmap, List.map_append]
    exact List.prefix_append _ _
  · rw [hmark, hchildren.length_eq, List.length_append, ← List.length_pos_iff]
    omega

variable (child)

/-- **One edge**: nodes for the first positions, until no node is left. -/
theorem ofPositions_spec (edge : CallEdge) (positions : List Nat) :
    ∀ budget, Fills child (positions.map fun i => (i, edge)) (ofPositions (child edge) budget positions) ∧
      ((ofPositions (child edge) budget positions).truncated = true →
        (ofPositions (child edge) budget positions).budget = 0) := by
  induction positions with
  | nil =>
    intro budget
    exact ⟨⟨[], [], rfl, List.Forall₂.nil, by simp [ofPositions]⟩, fun h => by cases h⟩
  | cons i rest ih =>
    intro budget
    rw [ofPositions]
    by_cases hspent : (budget == 0) = true
    · rw [if_pos hspent]
      exact ⟨⟨[], _, rfl, List.Forall₂.nil, by simp⟩, fun _ => rfl⟩
    · rw [if_neg hspent]
      obtain ⟨⟨kept, missing, htargets, hchildren, hmark⟩, hbudget⟩ := ih (child edge i budget).2
      refine ⟨⟨(i, edge) :: kept, missing, ?_, List.Forall₂.cons ⟨budget, rfl⟩ hchildren, hmark⟩, hbudget⟩
      rw [List.map_cons, htargets, List.cons_append]

theorem ofEdges_recursiveCalls (onWay : List String) (follow : Option (CallEdge → Nat → Growth))
    (edges : List CallEdge) :
    ∀ budget, (ofEdges follow onWay budget edges).recursiveCalls
      = (edges.map CallEdge.callee).filter fun name => onWay.contains name := by
  induction edges with
  | nil => intro budget; rfl
  | cons edge rest ih =>
    intro budget
    rw [ofEdges.eq_def, List.map_cons]
    dsimp only
    by_cases h : onWay.contains edge.callee = true
    · rw [if_pos h, List.filter_cons_of_pos h, ← ih budget]
    · rw [if_neg h, List.filter_cons_of_neg h]
      cases follow with
      | none => exact ih budget
      | some below =>
        dsimp only
        split
        · exact ih budget
        · exact ih _

/-- Once no node is left, no edge adds one. -/
theorem ofEdges_spent (onWay : List String) (follow : Option (CallEdge → Nat → Growth))
    (edges : List CallEdge) :
    (ofEdges follow onWay 0 edges).children = [] := by
  induction edges with
  | nil => rfl
  | cons edge rest ih =>
    rw [ofEdges.eq_def]
    dsimp only
    split
    · exact ih
    · cases follow with
      | none => exact ih
      | some below => exact ih

variable {reach : CallEdge → List Nat}

/-- At the full depth no edge adds a node. That an edge reaches something makes the mark of an edge that is
not followed a true one. -/
theorem ofEdges_none (onWay : List String) (edges : List CallEdge) (hreach : ∀ e ∈ edges, reach e ≠ [])
    (budget : Nat) :
    (ofEdges none onWay budget edges).children = [] ∧
      Fills child (wanted reach onWay edges) (ofEdges none onWay budget edges) := by
  suffices h : (ofEdges none onWay budget edges).children = [] ∧
      ((ofEdges none onWay budget edges).truncated = true ↔ wanted reach onWay edges ≠ []) by
    refine ⟨h.1, [], _, rfl, ?_, h.2⟩
    rw [h.1]
    exact List.Forall₂.nil
  induction edges with
  | nil => exact ⟨rfl, by simp [ofEdges, wanted]⟩
  | cons edge rest ih =>
    have hrest := ih fun e he => hreach e (List.mem_cons_of_mem edge he)
    rw [ofEdges]
    by_cases hon : onWay.contains edge.callee = true
    · rw [if_pos hon, wanted_cons_onWay rest hon]
      exact hrest
    · rw [if_neg hon, wanted_cons_new rest hon]
      exact ⟨hrest.1, by simp [hreach edge List.mem_cons_self]⟩

/-- **All edges**: nodes for the first of the wanted positions. -/
theorem ofEdges_some (onWay : List String) (edges : List CallEdge) (hreach : ∀ e ∈ edges, reach e ≠ []) :
    ∀ budget, Fills child (wanted reach onWay edges)
      (ofEdges (some fun e b => ofPositions (child e) b (reach e)) onWay budget edges) := by
  induction edges with
  | nil =>
    intro budget
    exact ⟨[], [], rfl, List.Forall₂.nil, by simp [ofEdges]⟩
  | cons edge rest ih =>
    intro budget
    have hrest := ih fun e he => hreach e (List.mem_cons_of_mem edge he)
    have hnone := ofEdges_spent onWay (some fun e b => ofPositions (child e) b (reach e)) rest
    rw [ofEdges]
    by_cases hon : onWay.contains edge.callee = true
    · rw [if_pos hon, wanted_cons_onWay rest hon]
      exact hrest budget
    rw [if_neg hon, wanted_cons_new rest hon]
    dsimp only
    by_cases hspent : budget = 0
    · -- the edge is not followed, nor is any after it
      subst hspent
      rw [if_pos (by rfl), hnone]
      exact ⟨[], _, rfl, List.Forall₂.nil, by simp [hreach edge List.mem_cons_self]⟩
    rw [if_neg (by simpa using hspent)]
    obtain ⟨⟨kept, missing, htargets, hchildren, hmark⟩, hbudget⟩ :=
      ofPositions_spec child edge (reach edge) budget
    rw [htargets]
    cases hcut : (ofPositions (child edge) budget (reach edge)).truncated with
    | true =>
      -- the nodes run out within the edge
      have hmissing := hmark.mp hcut
      rw [hbudget hcut, hnone, List.append_nil, Bool.true_or, List.append_assoc]
      exact ⟨kept, _, rfl, hchildren, by simp [hmissing]⟩
    | false =>
      -- the edge is followed to its end, and the next edges go on with what is left
      have hall : missing = [] := by simpa [hcut] using hmark
      subst hall
      obtain ⟨kept₂, missing₂, htargets₂, hchildren₂, hmark₂⟩ :=
        hrest (ofPositions (child edge) budget (reach edge)).budget
      refine ⟨kept ++ kept₂, missing₂, ?_, List.rel_append hchildren hchildren₂, ?_⟩
      · rw [htargets₂, List.append_nil, List.append_assoc]
      · rw [Bool.false_or]
        exact hmark₂

end Growth

/-! ### One node -/

namespace CallGraph

variable (g : CallGraph)

/-- What the calls at a position reach, below a way with the given names: for each edge to another name the
symbols it may mean, each with the first line of the edge. -/
def callsBelow (names : List String) (i : Nat) : List (Option SymbolId × Option Nat) :=
  ((g.edgesAt i).filter fun e => e.callee ∉ names).flatMap fun e =>
    (g.reached i e.callee).map fun j => (g.table.symbols[j]?.map Symbol.id, e.lines.head?)

/-- A node tells what the calls of the symbol at a position reach. The names are those on the way to the
node, its own included. -/
structure ExactAt (names : List String) (i : Nat) (node : CallTreeNode) : Prop where
  symbol : g.table.symbols[i]?.map Symbol.id = some node.symbol
  kind : g.table.symbols[i]?.map Symbol.kind = some node.kind
  /-- The children are the first of the symbols that are reached, in order. -/
  children : node.children.map (fun c => (some c.symbol, c.callLine)) <+: g.callsBelow names i
  /-- The mark says that some are missing. -/
  truncated : node.truncated = true ↔ node.children.length < (g.callsBelow names i).length
  recursiveCalls :
    node.recursiveCalls = ((g.edgesAt i).map CallEdge.callee).filter fun name => name ∈ names

/-- The positions that the calls at a position lead to, as the growth of a node takes them. -/
def targetsBelow (names : List String) (i : Nat) : List (Nat × CallEdge) :=
  Growth.wanted (fun e => g.resolve i e.callee) names (g.edgesAt i)

theorem callsBelow_eq (names : List String) (i : Nat) :
    g.callsBelow names i = (g.targetsBelow names i).map fun t =>
      (g.table.symbols[t.1]?.map Symbol.id, t.2.lines.head?) := by
  simp only [callsBelow, targetsBelow, Growth.wanted, List.map_flatMap, List.map_map, resolve_eq_reached,
    List.contains_eq_mem, decide_not]
  rfl

variable {g} {i : Nat} {s : Symbol}

/-- A target is the place of a symbol, with the name of the edge that leads there. -/
theorem symbol_of_mem_targetsBelow {names : List String} {t : Nat × CallEdge}
    (h : t ∈ g.targetsBelow names i) :
    ∃ s, g.table.symbols[t.1]? = some s ∧ s.name ∉ names ∧ t.2.lines.head? = some t.2.line := by
  obtain ⟨hedge, hnew, hpos⟩ := Growth.mem_wanted h
  obtain ⟨s, hs, hname⟩ := g.name_of_mem_resolve hpos
  exact ⟨s, hs, hname ▸ hnew, g.head?_lines_of_mem_edgesAt hedge⟩

/-- The node of a symbol: its calls fill it, from nodes of one depth less. -/
theorem grow_eq (hs : g.table.symbols[i]? = some s) (depth : Nat) (onWay : List String)
    (line : Option Nat) (budget : Nat) :
    ∃ r : Growth,
      (g.grow depth onWay line i budget).1
        = ⟨s.id, s.kind, line, r.children, r.truncated, r.recursiveCalls⟩ ∧
      r.recursiveCalls
        = ((g.edgesAt i).map CallEdge.callee).filter (fun name => (s.name :: onWay).contains name) ∧
      r.Fills (fun e j b => g.grow (depth - 1) (s.name :: onWay) (some e.line) j b)
        (g.targetsBelow (s.name :: onWay) i) ∧
      (depth = 0 → r.children = []) := by
  have hreach : ∀ e ∈ g.edgesAt i, g.resolve i e.callee ≠ [] :=
    fun e he => g.resolve_ne_nil (g.known_of_mem_edgesAt he)
  cases depth with
  | zero =>
    obtain ⟨hnone, hfills⟩ := Growth.ofEdges_none
      (fun e j b => g.grow 0 (s.name :: onWay) (some e.line) j b) (s.name :: onWay) _ hreach (budget - 1)
    refine ⟨_, ?_, Growth.ofEdges_recursiveCalls _ none _ (budget - 1), hfills, fun _ => hnone⟩
    rw [grow, hs]
    rfl
  | succ depth =>
    refine ⟨_, ?_, Growth.ofEdges_recursiveCalls _ (some _) _ (budget - 1),
      Growth.ofEdges_some _ (s.name :: onWay) _ hreach (budget - 1), fun h => by cases h⟩
    rw [grow, hs]
    rfl

theorem grow_symbol (hs : g.table.symbols[i]? = some s) (depth : Nat) (onWay : List String)
    (line : Option Nat) (budget : Nat) :
    (g.grow depth onWay line i budget).1.symbol = s.id ∧
      (g.grow depth onWay line i budget).1.callLine = line := by
  obtain ⟨r, hnode, -⟩ := grow_eq hs depth onWay line budget
  rw [hnode]
  exact ⟨rfl, rfl⟩

/-- **Every node that is grown is exact.** -/
theorem grow_exact (hs : g.table.symbols[i]? = some s) (depth : Nat) (onWay : List String)
    (line : Option Nat) (budget : Nat) :
    g.ExactAt (s.name :: onWay) i (g.grow depth onWay line i budget).1 := by
  obtain ⟨r, hnode, hrecursive, hfills, -⟩ := grow_eq hs depth onWay line budget
  obtain ⟨hchildren, hmark⟩ := hfills.map_children (fun c => (some c.symbol, c.callLine))
    (fun t => (g.table.symbols[t.1]?.map Symbol.id, t.2.lines.head?)) (by
      intro t ht b
      obtain ⟨s', hs', -, hline⟩ := symbol_of_mem_targetsBelow ht
      obtain ⟨hsymbol, hcall⟩ := grow_symbol hs' (depth - 1) (s.name :: onWay) (some t.2.line) b
      rw [hsymbol, hcall, hs', hline, Option.map_some])
  rw [hnode]
  refine ⟨by rw [hs]; rfl, by rw [hs]; rfl, ?_, ?_, ?_⟩
  · rw [callsBelow_eq]
    exact hchildren
  · rw [callsBelow_eq, List.length_map]
    exact hmark
  · simpa only [List.contains_eq_mem] using hrecursive

/-- The children of a node are grown to one depth less, for names that are not on the way. -/
theorem grow_children (hs : g.table.symbols[i]? = some s) {depth : Nat} {onWay : List String}
    {line : Option Nat} {budget : Nat} {c : CallTreeNode}
    (hc : c ∈ (g.grow depth onWay line i budget).1.children) :
    ∃ d j t line' b, depth = d + 1 ∧ g.table.symbols[j]? = some t ∧ t.name ∉ s.name :: onWay ∧
      c = (g.grow d (s.name :: onWay) line' j b).1 := by
  obtain ⟨r, hnode, -, hfills, hzero⟩ := grow_eq hs depth onWay line budget
  rw [hnode] at hc
  obtain ⟨t, ht, b, rfl⟩ := hfills.of_mem_children hc
  obtain ⟨s', hs', hnew, -⟩ := symbol_of_mem_targetsBelow ht
  cases depth with
  | zero =>
    rw [hzero rfl] at hc
    cases hc
  | succ d => exact ⟨d, t.1, s', some t.2.line, b, rfl, hs', hnew, rfl⟩

/-- A child stands for a symbol that a call of its parent reaches. -/
theorem exists_call_of_mem_children (hs : g.table.symbols[i]? = some s) {depth : Nat} {onWay : List String}
    {line : Option Nat} {budget : Nat} {c : CallTreeNode}
    (hc : c ∈ (g.grow depth onWay line i budget).1.children) :
    ∃ e ∈ g.edgesAt i, ∃ j ∈ g.resolve i e.callee, ∃ t, g.table.symbols[j]? = some t ∧ t.name = e.callee ∧
      c.symbol = t.id := by
  obtain ⟨r, hnode, -, hfills, -⟩ := grow_eq hs depth onWay line budget
  rw [hnode] at hc
  obtain ⟨t, ht, b, rfl⟩ := hfills.of_mem_children hc
  obtain ⟨hedge, -, hreached⟩ := Growth.mem_wanted ht
  obtain ⟨s', hs', hname⟩ := g.name_of_mem_resolve hreached
  exact ⟨t.2, hedge, t.1, hreached, s', hs', hname, (grow_symbol hs' _ _ _ _).1⟩

end CallGraph

/-! ### The whole tree -/

/-- The ways down a tree: a node, with the nodes above it from its parent to the root. -/
inductive CallTreeNode.Way (root : CallTreeNode) : CallTreeNode → List CallTreeNode → Prop
  | top : Way root root []
  | down {node child : CallTreeNode} {above : List CallTreeNode} :
      Way root node above → child ∈ node.children → Way root child (node :: above)

namespace CallTreeNode

theorem height_le {node : CallTreeNode} {n : Nat} (h : ∀ c ∈ node.children, c.height + 1 ≤ n) :
    node.height ≤ n := by
  obtain ⟨_, _, _, children, _, _⟩ := node
  rw [height]
  induction children with
  | nil => exact Nat.zero_le n
  | cons c rest ih =>
    rw [heightBelow]
    exact Nat.max_le.mpr ⟨h c List.mem_cons_self, ih fun c hc => h c (List.mem_cons_of_mem _ hc)⟩

end CallTreeNode

namespace CallGraph

variable {g : CallGraph} {i : Nat} {s : Symbol}

/-- A tree is no higher than the depth it is grown to. -/
theorem grow_height_le (depth : Nat) :
    ∀ {i s}, g.table.symbols[i]? = some s → ∀ onWay line budget,
      (g.grow depth onWay line i budget).1.height ≤ depth := by
  induction depth with
  | zero =>
    intro i s hs onWay line budget
    refine CallTreeNode.height_le fun c hc => ?_
    obtain ⟨d, _, _, _, _, hd, -⟩ := grow_children hs hc
    cases hd
  | succ depth ih =>
    intro i s hs onWay line budget
    refine CallTreeNode.height_le fun c hc => ?_
    obtain ⟨d, j, t, line', b, hd, ht, -, rfl⟩ := grow_children hs hc
    obtain rfl : depth = d := Nat.succ.inj hd
    exact Nat.succ_le_succ (ih ht _ _ _)

/-- Every node on a tree is grown below the names of the nodes above it, and these names are distinct. -/
theorem way_spec (hs : g.table.symbols[i]? = some s) {depth : Nat} {line : Option Nat} {budget : Nat}
    {node : CallTreeNode} {above : List CallTreeNode}
    (h : (g.grow depth [] line i budget).1.Way node above) :
    ((node :: above).map (·.symbol.name)).Nodup ∧
      ∃ d j t line' b, g.table.symbols[j]? = some t ∧
        node = (g.grow d (above.map (·.symbol.name)) line' j b).1 := by
  induction h with
  | top => exact ⟨List.nodup_singleton _, depth, i, s, line, budget, hs, rfl⟩
  | @down node child above _ hchild ih =>
    obtain ⟨hnodup, d, j, t, line', b, ht, rfl⟩ := ih
    have hname : (g.grow d (above.map (·.symbol.name)) line' j b).1.symbol.name = t.name := by
      rw [(grow_symbol ht _ _ _ _).1]
      rfl
    obtain ⟨d', j', t', line'', b', -, ht', hnew, rfl⟩ := grow_children ht hchild
    rw [← hname] at hnew ⊢
    refine ⟨?_, d', j', t', line'', b', ht', rfl⟩
    rw [List.map_cons, List.nodup_cons, (grow_symbol ht' _ _ _ _).1]
    exact ⟨hnew, hnodup⟩

/-- **The call trees of a name.** There is one tree for each symbol of the name, no higher than the granted
depth. On every way down no name stands twice, and every node is exact for the names on the way to it. In a
table that is put together from fragments, its identity tells which symbol it stands for. -/
theorem callTree_nodes_exact (g : CallGraph) (name : String) (depth : Nat) :
    (g.callTree name depth).trees.map (fun tree => (some tree.root.symbol, tree.root.callLine))
        = (g.occurrencesOf name).map (fun i => (g.table.symbols[i]?.map Symbol.id, none)) ∧
    ∀ tree ∈ (g.callTree name depth).trees,
      tree.root.height ≤ g.limits.clampDepth depth ∧
      ∀ node above, tree.root.Way node above →
        ((node :: above).map (·.symbol.name)).Nodup ∧
        ∃ i, g.ExactAt ((node :: above).map (·.symbol.name)) i node ∧
          ∀ fragments, g.table = .ofFragments fragments → g.table.positionOf? node.symbol = some i := by
  constructor
  · show ((g.table.positions name).map _).map _ = _
    rw [List.map_map, show g.occurrencesOf name = g.table.positions name from
      (g.table.positions_eq_filter_range name).symm]
    refine List.map_congr_left fun i hi => ?_
    obtain ⟨s, hs, -⟩ := g.table.mem_positions.mp hi
    obtain ⟨hsymbol, hline⟩ :=
      grow_symbol hs (g.limits.clampDepth depth) [] none g.limits.maxTreeNodes
    rw [Function.comp_apply, treeAt, hsymbol, hline, hs, Option.map_some]
  · intro tree htree
    obtain ⟨i, hi, rfl⟩ := List.mem_map.mp htree
    obtain ⟨s, hs, -⟩ := g.table.mem_positions.mp hi
    refine ⟨grow_height_le _ hs _ _ _, ?_⟩
    intro node above hway
    obtain ⟨hnodup, d, j, t, line, b, ht, rfl⟩ := way_spec hs hway
    have hsymbol := (grow_symbol ht d (above.map (·.symbol.name)) line b).1
    refine ⟨hnodup, j, ?_, ?_⟩
    · rw [List.map_cons, hsymbol]
      exact grow_exact ht d _ line b
    · intro fragments htable
      rw [hsymbol]
      rw [htable] at ht ⊢
      exact SymbolTable.positionOf?_ofFragments ht

/-- A name calls another that has a symbol in each of two further files. The first of these calls back. -/
def twins : CallGraph :=
  .ofTable
    (.ofFragments [⟨.ofText "n.c" .c [],
      [⟨"s", .function, "a.c", 1, 1, "", "t"⟩, ⟨"t", .function, "b.c", 1, 1, "", "s u"⟩,
        ⟨"t", .function, "c.c", 1, 1, "", "u"⟩, ⟨"u", .function, "d.c", 1, 1, "", "t"⟩],
      [], 0⟩])
    { maxTreeNodes := 3 }

/-- Three nodes are enough for the first of the two symbols of one name. -/
theorem trees_twins : (twins.callTree "s" 5).trees = [⟨⟨⟨"s", "a.c", 1⟩, .function, none,
    [⟨⟨"t", "b.c", 1⟩, .function, some 1, [⟨⟨"u", "d.c", 1⟩, .function, some 1, [], false, ["t"]⟩],
      false, ["s"]⟩], true, []⟩, 5⟩] := by
  rfl

/-- The three nodes run out between the two symbols of one name. -/
theorem twins_nodes_exact :
    ∃ tree ∈ (twins.callTree "s" 5).trees, ∃ node, tree.root.children = [node] ∧
      tree.root.truncated = true ∧ node.truncated = false ∧ node.recursiveCalls = ["s"] ∧
      tree.root.height ≤ 5 ∧ (∃ i, twins.ExactAt ["s"] i tree.root) ∧
      (["t", "s"].Nodup ∧ ∃ i, twins.ExactAt ["t", "s"] i node) := by
  obtain ⟨-, hall⟩ := callTree_nodes_exact twins "s" 5
  rw [trees_twins] at hall ⊢
  obtain ⟨hheight, hways⟩ := hall _ List.mem_cons_self
  refine ⟨_, List.mem_cons_self, _, rfl, rfl, rfl, rfl, hheight, ?_, ?_⟩
  · obtain ⟨-, i, hi, -⟩ := hways _ [] .top
    exact ⟨i, hi⟩
  · obtain ⟨hnodup, i, hi, -⟩ := hways _ _ (.down .top List.mem_cons_self)
    exact ⟨hnodup, i, hi⟩

end CallGraph

end CodeAtlas
