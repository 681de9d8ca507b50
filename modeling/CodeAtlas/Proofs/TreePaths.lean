import CodeAtlas.Proofs.CallTreeNodes
import CodeAtlas.Proofs.TableGrowth

/-!
# Ways down a call tree are call paths

A call tree goes from symbol to symbol, where a call prefers the symbols of its own file and the nodes are
counted. A search for paths goes from name to name and takes all symbols of a name together. This file
compares the two answers: whatever way a tree shows, the search finds the names on it.

* `CallTreeNode.namesDown`: the names on a way, from the root to the node;
* `CallGraph.hasCall_of_mem_children`: a child stands for a name that its parent calls;
* `CallGraph.isSimplePath_namesDown`: the names on a way are a simple path;
* `CallGraph.tree_ways_are_found`: a search that allows as many calls as the way has finds this path.
-/

namespace CodeAtlas

/-- The names on the way from the root to a node, given the nodes above it. -/
def CallTreeNode.namesDown (node : CallTreeNode) (above : List CallTreeNode) : NamePath :=
  (node :: above).reverse.map (·.symbol.name)

namespace CallTreeNode

theorem namesDown_cons (child node : CallTreeNode) (above : List CallTreeNode) :
    child.namesDown (node :: above) = node.namesDown above ++ [child.symbol.name] := by
  simp [namesDown]

theorem mem_namesDown {node : CallTreeNode} {above : List CallTreeNode} {name : String} :
    name ∈ node.namesDown above ↔ name ∈ (node :: above).map (·.symbol.name) := by
  rw [namesDown, List.map_reverse, List.mem_reverse]

theorem length_namesDown (node : CallTreeNode) (above : List CallTreeNode) :
    (node.namesDown above).length = above.length + 1 := by
  simp [namesDown]

theorem getLast?_namesDown (node : CallTreeNode) (above : List CallTreeNode) :
    (node.namesDown above).getLast? = some node.symbol.name := by
  simp [namesDown]

end CallTreeNode

theorem Limits.clampHops_eq {limits : Limits} {hops : Nat} (hlow : 1 ≤ hops) (hhigh : hops ≤ limits.maxHops) :
    limits.clampHops hops = hops := by
  rw [clampHops, clamp]
  omega

namespace CallGraph

variable {g : CallGraph} {i : Nat} {s : Symbol}

/-- A child stands for a symbol whose name the symbol of its parent calls. -/
theorem hasCall_of_mem_children (hs : g.table.symbols[i]? = some s) {depth : Nat} {onWay : List String}
    {line : Option Nat} {budget : Nat} {c : CallTreeNode}
    (hc : c ∈ (g.grow depth onWay line i budget).1.children) : g.HasCall s.name c.symbol.name := by
  obtain ⟨e, he, j, -, t, -, hname, hsymbol⟩ := exists_call_of_mem_children hs hc
  rw [hsymbol]
  exact ⟨i, s, hs, rfl, e, he, hname.symm⟩

/-- **The names on a way down are a simple path.** One step of the way is one call, and a name that is on
the way is not followed again. -/
theorem isSimplePath_namesDown (hs : g.table.symbols[i]? = some s) {depth : Nat} {line : Option Nat}
    {budget : Nat} {node : CallTreeNode} {above : List CallTreeNode}
    (h : (g.grow depth [] line i budget).1.Way node above) :
    IsSimplePath g.HasCall s.name (node.namesDown above) := by
  induction h with
  | top =>
    have hroot : (g.grow depth [] line i budget).1.namesDown [] = [s.name] := by
      rw [CallTreeNode.namesDown, List.reverse_singleton, List.map_singleton, (grow_symbol hs _ _ _ _).1]
      rfl
    rw [hroot]
    exact IsSimplePath.singleton
  | @down node child above hway hchild ih =>
    have hnew := (way_spec hs (hway.down hchild)).1
    rw [List.map_cons, List.nodup_cons, ← CallTreeNode.mem_namesDown] at hnew
    rw [CallTreeNode.namesDown_cons, IsSimplePath.concat_iff ih.ne_nil]
    refine ⟨ih, ?_, hnew.1⟩
    intro name hname
    rw [CallTreeNode.getLast?_namesDown, Option.mem_some_iff] at hname
    -- the parent is a grown node, so its children are what it calls
    obtain ⟨-, d, j, t, line', b, ht, rfl⟩ := way_spec hs hway
    rw [← hname, (grow_symbol ht _ _ _ _).1]
    exact hasCall_of_mem_children ht hchild

theorem status_of_mem_namePaths {source target : String} {hops : Nat} {p : NamePath}
    (h : p ∈ (g.pathSearch source target hops).namePaths) :
    (g.pathSearch source target hops).status = .found := by
  obtain ⟨hs, ht, -⟩ := isPathBetween_of_mem_namePaths h
  rw [namePaths_pathSearch hs ht] at h
  rw [pathSearch_of_known hs ht]
  show (if _ then QueryStatus.noPath source target else .found) = .found
  rw [if_neg (by simpa using List.ne_nil_of_mem h)]

/-- **What a call tree shows, a search for paths finds.** Take a node of a call tree of a name, below the
root and no deeper than the greatest number of hops. A search from the name of the root to the name of the
node, for as many hops as the node is deep, is successful, and among its paths are the names from the root
to the node, unless the caps on paths cut its answer short. -/
theorem tree_ways_are_found (g : CallGraph) (name : String) (depth : Nat) (tree : CallTree)
    (htree : tree ∈ (g.callTree name depth).trees) (node : CallTreeNode) (above : List CallTreeNode)
    (hway : tree.root.Way node above) (hbelow : 1 ≤ above.length) (hhops : above.length ≤ g.limits.maxHops)
    (hidle : g.CapsIdle name node.symbol.name above.length) :
    (g.pathSearch name node.symbol.name above.length).status = .found ∧
      node.namesDown above ∈ (g.pathSearch name node.symbol.name above.length).namePaths := by
  obtain ⟨i, hi, rfl⟩ := List.mem_map.mp htree
  obtain ⟨s, hs, rfl⟩ := g.table.mem_positions.mp hi
  have hpath := isSimplePath_namesDown hs hway
  have hsource : g.table.containsName s.name = true :=
    (g.table.containsName_iff s.name).mpr ⟨s, List.mem_of_getElem? hs, rfl⟩
  have hlast := node.getLast?_namesDown above
  have htarget := g.known_of_mem_path hsource hpath _ (List.mem_of_getLast? hlast)
  have hfound := hidle.mem_namePaths hsource htarget (p := node.namesDown above) (by
    refine ⟨hpath, hlast, ?_⟩
    rw [Limits.clampHops_eq hbelow hhops, CallTreeNode.length_namesDown])
  exact ⟨status_of_mem_namePaths hfound, hfound⟩

/-- On the tree of `twins`, the way over the first of two symbols of one name is a path of the search. -/
theorem twins_way_is_found :
    ∃ tree ∈ (twins.callTree "s" 5).trees, ∃ node above, tree.root.Way node above ∧ above.length = 2 ∧
      node.namesDown above = ["s", "t", "u"] ∧ twins.CapsIdle "s" "u" 2 ∧
      (twins.pathSearch "s" "u" 2).status = .found ∧
      ["s", "t", "u"] ∈ (twins.pathSearch "s" "u" 2).namePaths := by
  have hsearch : twins.table.containsName "s" = true ∧ twins.table.containsName "u" = true ∧
      candidates twins.adjacency "s" "u" (twins.limits.clampHops 2) = [["s", "t"], ["s", "t", "u"]] := by
    decide +kernel
  obtain ⟨hs, hu, hcandidates⟩ := hsearch
  have hidle : twins.CapsIdle "s" "u" 2 := by
    apply capsIdle_of_room hs hu (by decide)
    · rw [hcandidates]
      decide
    · rw [hcandidates]
      decide
  have hfound := tree_ways_are_found twins "s" 5
  rw [trees_twins] at hfound ⊢
  refine ⟨_, List.mem_cons_self, _, _, .down (.down .top List.mem_cons_self) List.mem_cons_self, rfl, rfl,
    hidle, ?_⟩
  exact hfound _ List.mem_cons_self _ _ (.down (.down .top List.mem_cons_self) List.mem_cons_self)
    (by decide) (by decide) hidle

end CallGraph

end CodeAtlas
