import CodeAtlas.Proofs.CallTreeNodes
import CodeAtlas.Proofs.TableIdentity
import CodeAtlas.Query.FileDependency
import Mathlib.Data.List.Count

/-!
# Calls between files

The dependencies of files count calls in a pass of their own over all symbols. Call trees of depth one show the
same calls, one child for each. This file compares the two: an edge between two files stands for the children
in the one file of the trees that are rooted in the other.

* `CallGraph.reachedAt`: what the calls of a symbol reach; `CallGraph.map_children_treeAt`: with nodes enough,
  these are the children of its tree of depth one;
* `CallGraph.shallowTrees_perm`: the trees of depth one of all names are one for each symbol;
* `CallGraph.callsAcross`, `CallGraph.length_callsAcross`: the children in one file of the trees of another,
  and how many pairs of files they make;
* `CallGraph.fileEdges_are_tree_calls`: the edges between files, and what they count.
-/

namespace CodeAtlas

/-! ### Nodes enough -/

namespace Growth

theorem ofEdges_none_budget (onWay : List String) (budget : Nat) (edges : List CallEdge) :
    (ofEdges none onWay budget edges).budget = budget := by
  induction edges with
  | nil => rfl
  | cons edge rest ih =>
    rw [ofEdges]
    split
    · exact ih
    · exact ih

/-- If each child takes one node, and there are as many nodes as positions, each position gets its child. -/
theorem ofPositions_room {child : Nat → Nat → CallTreeNode × Nat} (hchild : ∀ i b, (child i b).2 = b - 1)
    (positions : List Nat) :
    ∀ budget, positions.length ≤ budget →
      (ofPositions child budget positions).truncated = false ∧
      (ofPositions child budget positions).budget = budget - positions.length := by
  induction positions with
  | nil =>
    intro budget _
    exact ⟨rfl, rfl⟩
  | cons i rest ih =>
    intro budget hroom
    rw [List.length_cons] at hroom
    rw [ofPositions, if_neg (by simp only [beq_iff_eq]; omega)]
    obtain ⟨hwhole, hleft⟩ := ih (budget - 1) (by omega)
    refine ⟨?_, ?_⟩
    · show (ofPositions child (child i budget).2 rest).truncated = false
      rw [hchild, hwhole]
    · show (ofPositions child (child i budget).2 rest).budget = budget - (i :: rest).length
      rw [hchild, hleft, List.length_cons]
      omega

/-- So does each position that an edge reaches. -/
theorem ofEdges_room {child : CallEdge → Nat → Nat → CallTreeNode × Nat} {reach : CallEdge → List Nat}
    (hchild : ∀ e i b, (child e i b).2 = b - 1) (onWay : List String) (edges : List CallEdge)
    (hreach : ∀ e ∈ edges, reach e ≠ []) :
    ∀ budget, (edges.flatMap reach).length ≤ budget →
      (ofEdges (some fun e b => ofPositions (child e) b (reach e)) onWay budget edges).truncated = false := by
  induction edges with
  | nil =>
    intro budget _
    rfl
  | cons edge rest ih =>
    intro budget hroom
    have ih := ih fun e he => hreach e (List.mem_cons_of_mem edge he)
    have hpos := List.length_pos_iff.mpr (hreach edge List.mem_cons_self)
    rw [List.flatMap_cons, List.length_append] at hroom
    rw [ofEdges]
    split
    · exact ih budget (by omega)
    · obtain ⟨hwhole, hleft⟩ := ofPositions_room (hchild edge) (reach edge) budget (by omega)
      dsimp only
      rw [if_neg (by simp only [beq_iff_eq]; omega), hwhole, Bool.false_or]
      exact ih _ (by omega)

end Growth

namespace CallGraph

variable {g : CallGraph} {i : Nat} {s : Symbol} {a b : String}

/-- The positions that the calls at a position reach, edge by edge. -/
def reachedAt (g : CallGraph) (i : Nat) : List Nat :=
  (g.edgesAt i).flatMap fun e => g.resolve i e.callee

/-- A node at the full depth takes one node off the budget. -/
theorem grow_zero_budget (onWay : List String) (line : Option Nat) (budget : Nat) :
    (g.grow 0 onWay line i budget).2 = budget - 1 := by
  rw [grow]
  exact Growth.ofEdges_none_budget _ _ _

theorem treeAt_one_whole (hs : g.table.symbols[i]? = some s)
    (hroom : (g.reachedAt i).length < g.limits.maxTreeNodes) :
    (g.treeAt 1 i).root.truncated = false := by
  have hreach : ∀ e ∈ g.edgesAt i, g.resolve i e.callee ≠ [] :=
    fun e he => g.resolve_ne_nil (g.known_of_mem_edgesAt he)
  rw [treeAt, grow, hs]
  exact Growth.ofEdges_room (fun e j b => grow_zero_budget [s.name] (some e.line) b) [s.name] _ hreach _
    (Nat.le_pred_of_lt hroom)

/-- Below the symbol itself, all its calls count: it has no edge to its own name. -/
theorem callsBelow_own (hs : g.table.symbols[i]? = some s) :
    (g.callsBelow [s.name] i).map Prod.fst
      = (g.reachedAt i).map fun j => g.table.symbols[j]?.map Symbol.id := by
  have hall : (g.edgesAt i).filter (fun e => e.callee ∉ [s.name]) = g.edgesAt i := by
    rw [List.filter_eq_self]
    intro e he
    obtain ⟨s', hs', hedge⟩ := g.exists_isEdgeOf he
    cases hs.symm.trans hs'
    simpa using hedge.other
  simp only [callsBelow, hall, reachedAt, List.map_flatMap, List.map_map, resolve_eq_reached]
  rfl

/-- **The children of a tree of depth one**, if there are nodes enough: the symbols that the calls of its root
reach. -/
theorem map_children_treeAt (hs : g.table.symbols[i]? = some s)
    (hroom : (g.reachedAt i).length < g.limits.maxTreeNodes) :
    (g.treeAt 1 i).root.children.map (·.symbol)
      = (g.reachedAt i).filterMap fun j => g.table.symbols[j]?.map Symbol.id := by
  have hexact : g.ExactAt [s.name] i (g.treeAt 1 i).root := grow_exact hs 1 [] none g.limits.maxTreeNodes
  have hlength : ¬ (g.treeAt 1 i).root.children.length < (g.callsBelow [s.name] i).length := by
    rw [← hexact.truncated, treeAt_one_whole hs hroom]
    decide
  have hall := hexact.children.eq_of_length_le (by rw [List.length_map]; omega)
  have hsymbols := congrArg (List.map Prod.fst) hall
  rw [callsBelow_own hs, List.map_map] at hsymbols
  have hreached := congrArg (List.filterMap id) hsymbols
  rw [List.filterMap_map, List.filterMap_map] at hreached
  rw [← List.filterMap_eq_map]
  exact hreached

/-- The files of the children. -/
theorem map_file_children_treeAt (hs : g.table.symbols[i]? = some s)
    (hroom : (g.reachedAt i).length < g.limits.maxTreeNodes) :
    (g.treeAt 1 i).root.children.map (·.symbol.file) = (g.reachedAt i).filterMap g.fileAt := by
  have hfiles := congrArg (List.map SymbolId.file) (map_children_treeAt hs hroom)
  rw [List.map_map, List.map_filterMap] at hfiles
  rw [show g.fileAt = fun j => (g.table.symbols[j]?.map Symbol.id).map SymbolId.file by
    funext j
    rw [Option.map_map]
    rfl]
  exact hfiles

/-! ### The trees of depth one -/

/-- The call trees of depth one of all names. -/
def shallowTrees (g : CallGraph) : List CallTree :=
  g.table.names.flatMap fun name => (g.callTree name 1).trees

theorem names_flatMap_positions_perm (table : SymbolTable) :
    (table.names.flatMap table.positions).Perm (List.range table.size) := by
  have hnodup : (table.names.flatMap table.positions).Nodup := by
    refine List.nodup_flatMap.mpr ⟨fun name _ => ?_, ?_⟩
    · rw [table.positions_eq_filter_range]
      exact List.nodup_range.filter _
    · refine (Std.ExtTreeMap.nodup_keys (t := table.byName)).imp fun {a b} hab i ha hb => hab ?_
      obtain ⟨s, hs, rfl⟩ := table.mem_positions.mp ha
      obtain ⟨s', hs', rfl⟩ := table.mem_positions.mp hb
      cases hs.symm.trans hs'
      rfl
  rw [List.perm_ext_iff_of_nodup hnodup List.nodup_range]
  intro i
  rw [List.mem_flatMap, List.mem_range]
  constructor
  · rintro ⟨name, -, hi⟩
    obtain ⟨s, hs, -⟩ := table.mem_positions.mp hi
    exact (List.getElem?_eq_some_iff.mp hs).1
  · intro hi
    have hs : table.symbols[i]? = some table.symbols[i] := List.getElem?_eq_getElem hi
    have hname := (table.containsName_iff _).mpr ⟨_, List.mem_of_getElem? hs, rfl⟩
    refine ⟨table.symbols[i].name, ?_, table.mem_positions.mpr ⟨_, hs, rfl⟩⟩
    exact Std.ExtTreeMap.mem_keys.mpr (Std.ExtTreeMap.contains_iff_mem.mp hname)

/-- There is one tree of depth one for each symbol. -/
theorem shallowTrees_perm (g : CallGraph) :
    g.shallowTrees.Perm (g.table.symbols.zipIdx.map fun p => g.treeAt 1 p.2) := by
  have htrees : g.shallowTrees = (g.table.names.flatMap g.table.positions).map (g.treeAt 1) := by
    rw [shallowTrees, List.map_flatMap]
    refine List.flatMap_congr fun name _ => ?_
    show (g.table.positions name).map (g.treeAt (g.limits.clampDepth 1)) = _
    rw [show g.limits.clampDepth 1 = 1 by rw [Limits.clampDepth, Limits.clamp]; omega]
  have hplaces : g.table.symbols.zipIdx.map (fun p => g.treeAt 1 p.2)
      = (List.range g.table.size).map (g.treeAt 1) := by
    rw [show (fun p : Symbol × Nat => g.treeAt 1 p.2) = g.treeAt 1 ∘ Prod.snd from rfl, ← List.map_map,
      List.zipIdx_map_snd, List.range_eq_range']
    rfl
  rw [htrees, hplaces]
  exact (names_flatMap_positions_perm g.table).map _

theorem mem_shallowTrees {tree : CallTree} :
    tree ∈ g.shallowTrees ↔ ∃ i s, g.table.symbols[i]? = some s ∧ tree = g.treeAt 1 i := by
  rw [g.shallowTrees_perm.mem_iff, List.mem_map]
  constructor
  · rintro ⟨⟨s, i⟩, hp, rfl⟩
    exact ⟨i, s, List.mem_zipIdx_iff_getElem?.mp hp, rfl⟩
  · rintro ⟨i, s, hs, rfl⟩
    exact ⟨(s, i), List.mem_zipIdx_iff_getElem?.mpr hs, rfl⟩

theorem roots_shallowTrees_perm (g : CallGraph) :
    (g.shallowTrees.map (·.root.symbol)).Perm (g.table.symbols.map Symbol.id) := by
  have hfirst : g.table.symbols.map Symbol.id = g.table.symbols.zipIdx.map (Symbol.id ∘ Prod.fst) := by
    rw [← List.map_map, List.zipIdx_map_fst]
  refine (g.shallowTrees_perm.map _).trans (List.Perm.of_eq ?_)
  rw [List.map_map, hfirst]
  refine List.map_congr_left fun p hp => ?_
  exact (grow_symbol (List.mem_zipIdx_iff_getElem?.mp hp) 1 [] none g.limits.maxTreeNodes).1

theorem file_root_treeAt (hs : g.table.symbols[i]? = some s) : (g.treeAt 1 i).root.symbol.file = s.file := by
  rw [treeAt, (grow_symbol hs 1 [] none g.limits.maxTreeNodes).1]
  rfl

/-! ### The calls from one file to another -/

/-- The children in the file `b` of the trees of depth one that are rooted in the file `a`. -/
def callsAcross (g : CallGraph) (a b : String) : List CallTreeNode :=
  (g.shallowTrees.filter fun tree => tree.root.symbol.file = a).flatMap fun tree =>
    tree.root.children.filter fun c => c.symbol.file = b

theorem mem_callsAcross {c : CallTreeNode} :
    c ∈ g.callsAcross a b
      ↔ ∃ tree ∈ g.shallowTrees, tree.root.symbol.file = a ∧ c ∈ tree.root.children ∧ c.symbol.file = b := by
  simp only [callsAcross, List.mem_flatMap, List.mem_filter, decide_eq_true_eq, and_assoc]

theorem filePairsAt_eq (i : Nat) (s : Symbol) :
    g.filePairsAt i s
      = (((g.reachedAt i).filterMap g.fileAt).filter (· ≠ s.file)).map fun file => (s.file, file) := by
  rw [filePairsAt, reachedAt, List.filterMap_flatMap, List.filter_flatMap, List.map_flatMap]
  refine List.flatMap_congr fun e _ => ?_
  rw [← List.filterMap_eq_filter, ← List.filterMap_eq_map, List.filterMap_filterMap, List.filterMap_filterMap]
  refine List.filterMap_congr fun j _ => ?_
  cases g.fileAt j with
  | none => rfl
  | some file => by_cases h : file = s.file <;> simp [h, Option.guard]

/-- A pair of files is counted for a symbol as often as the tree of the symbol has a child in the second file. -/
theorem count_filePairsAt (hs : g.table.symbols[i]? = some s)
    (hroom : (g.reachedAt i).length < g.limits.maxTreeNodes) (hne : a ≠ b) :
    (g.filePairsAt i s).count (a, b)
      = if s.file = a then ((g.treeAt 1 i).root.children.filter fun c => c.symbol.file = b).length else 0 := by
  rw [filePairsAt_eq, ← map_file_children_treeAt hs hroom]
  split
  · rename_i hfile
    subst hfile
    rw [List.count_map_of_injective _ _ (Prod.mk_right_injective _), List.count_filter (by simpa using hne.symm),
      List.count, List.countP_map, List.countP_eq_length_filter]
    rfl
  · rename_i hfile
    rw [List.count_eq_zero, List.mem_map]
    rintro ⟨file, -, hpair⟩
    exact hfile (Prod.mk.inj hpair).1

theorem ne_of_mem_filePairs (h : (a, b) ∈ g.filePairs) : a ≠ b := by
  obtain ⟨⟨s, i⟩, -, hpair⟩ := List.mem_flatMap.mp h
  have hpair : (a, b) ∈ g.filePairsAt i s := hpair
  rw [filePairsAt_eq, List.mem_map] at hpair
  obtain ⟨file, hfile, hpair⟩ := hpair
  obtain ⟨rfl, rfl⟩ := Prod.mk.inj hpair
  exact (of_decide_eq_true (List.mem_filter.mp hfile).2).symm

/-- Counting in one list what stands in the parts of another, tree by tree. -/
theorem count_flatMap_eq_length {α β γ δ : Type} [BEq β] {pairs : α → List β} {x : β} {tree : α → γ}
    {p : γ → Bool} {below : γ → List δ} (list : List α)
    (h : ∀ a ∈ list, (pairs a).count x = if p (tree a) then (below (tree a)).length else 0) :
    (list.flatMap pairs).count x = (((list.map tree).filter p).flatMap below).length := by
  induction list with
  | nil => rfl
  | cons a rest ih =>
    rw [List.flatMap_cons, List.count_append, h a List.mem_cons_self,
      ih fun a ha => h a (List.mem_cons_of_mem _ ha), List.map_cons, List.filter_cons]
    split
    · rw [List.flatMap_cons, List.length_append]
    · rw [Nat.zero_add]

/-- **The calls across** two files are as many as the pairs that the dependencies count. -/
theorem length_callsAcross (hroom : ∀ i < g.table.size, (g.reachedAt i).length < g.limits.maxTreeNodes)
    (hne : a ≠ b) : (g.callsAcross a b).length = g.filePairs.count (a, b) := by
  have hperm : (g.callsAcross a b).Perm
      (((g.table.symbols.zipIdx.map fun p => g.treeAt 1 p.2).filter
          fun tree => tree.root.symbol.file = a).flatMap fun tree =>
        tree.root.children.filter fun c => c.symbol.file = b) :=
    ((g.shallowTrees_perm).filter _).flatMap_right _
  rw [hperm.length_eq, filePairs]
  refine (count_flatMap_eq_length _ ?_).symm
  rintro ⟨s, i⟩ hp
  have hs := List.mem_zipIdx_iff_getElem?.mp hp
  have hi := (List.getElem?_eq_some_iff.mp hs).1
  rw [file_root_treeAt hs]
  simpa using count_filePairsAt hs (hroom i hi) hne

/-- A call reaches symbols of the caller's file only, if one of them has the name. -/
theorem fileAt_of_mem_resolve {callee : String} {j k : Nat} (hj : j ∈ g.resolve i callee)
    (hk : k ∈ g.table.positions callee) (hfile : g.fileAt k = g.fileAt i) : g.fileAt j = g.fileAt i := by
  rw [resolve] at hj
  split at hj
  · rename_i hnone
    rw [List.isEmpty_iff, List.filter_eq_nil_iff] at hnone
    exact absurd (by simp [hfile]) (hnone k hk)
  · simpa using (List.mem_filter.mp hj).2

/-- A call that leaves its file is of a name that the file does not define. -/
theorem name_ne_of_mem_callsAcross {c : CallTreeNode} (hc : c ∈ g.callsAcross a b) (hne : a ≠ b)
    {s : Symbol} (hs : s ∈ g.table.symbols) (hfile : s.file = a) : s.name ≠ c.symbol.name := by
  obtain ⟨tree, htree, hroot, hc, hchild⟩ := mem_callsAcross.mp hc
  obtain ⟨i, caller, hcaller, rfl⟩ := mem_shallowTrees.mp htree
  rw [file_root_treeAt hcaller] at hroot
  obtain ⟨e, -, j, hj, t, ht, hname, hsymbol⟩ := exists_call_of_mem_children hcaller hc
  rw [hsymbol] at hchild
  intro hsame
  obtain ⟨k, hk⟩ := List.getElem?_of_mem hs
  have hdefined : k ∈ g.table.positions e.callee := by
    rw [g.table.mem_positions]
    exact ⟨s, hk, by rw [hsame, hsymbol, ← hname]; rfl⟩
  have hnear := fileAt_of_mem_resolve hj hdefined (by rw [fileAt, fileAt, hk, hcaller]; simp [hfile, hroot])
  rw [fileAt, fileAt, ht, hcaller, Option.map_some, Option.map_some, Option.some.injEq, hroot] at hnear
  exact hne (hnear.symm.trans hchild)

/-! ### The edges between files -/

/-- The order of pairs: by the first, then by the second. -/
def pairOrder : String × String → String × String → Ordering :=
  compareLex (compareOn Prod.fst) (compareOn Prod.snd)

instance : Std.TransCmp pairOrder :=
  inferInstanceAs (Std.TransCmp (compareLex _ _))

theorem pairOrder_eq (p q : String × String) :
    pairOrder p q = (compare p.1 q.1).then (compare p.2 q.2) :=
  rfl

theorem pairInOrder_iff (p q : String × String) : pairInOrder p q = true ↔ (pairOrder p q).isLE = true := by
  have hsecond : (compare p.2 q.2).isLE = true ↔ p.2 ≤ q.2 :=
    isLE_compareOfLessAndEq String.le_antisymm String.not_le String.le_total
  rw [pairInOrder, pairOrder_eq]
  cases compare p.1 q.1 with
  | lt => simp [Ordering.then]
  | gt => simp [Ordering.then]
  | eq => simp [Ordering.then, hsecond]

theorem pairOrder_eq_eq_iff (p q : String × String) : pairOrder p q = .eq ↔ p = q := by
  simp [pairOrder_eq, Ordering.then_eq_eq, Prod.ext_iff]

theorem mem_fileEdges {edge : FileEdge} :
    edge ∈ g.fileDependencies.edges
      ↔ (edge.source, edge.target) ∈ g.filePairs ∧ edge.calls = g.filePairs.count (edge.source, edge.target) := by
  obtain ⟨a, b, n⟩ := edge
  show _ ∈ (sortBy pairInOrder g.filePairs).eraseReps.map _ ↔ _
  rw [List.mem_map]
  constructor
  · rintro ⟨⟨a, b⟩, hpair, hedge⟩
    cases hedge
    rw [mem_eraseReps, mem_sortBy] at hpair
    exact ⟨hpair, rfl⟩
  · rintro ⟨hpair, hcalls⟩
    refine ⟨(a, b), ?_, congrArg (FileEdge.mk a b) hcalls.symm⟩
    rw [mem_eraseReps, mem_sortBy]
    exact hpair

theorem fileEdges_pairwise (g : CallGraph) :
    g.fileDependencies.edges.Pairwise fun x y =>
      x.source < y.source ∨ x.source = y.source ∧ x.target < y.target := by
  have hsorted : (sortBy pairInOrder g.filePairs).eraseReps.Pairwise
      fun p q => pairOrder p q = .lt :=
    eraseRepsBy_sortBy_strict pairInOrder_iff (fun p q => by rw [beq_iff_eq, pairOrder_eq_eq_iff]) _
  refine List.pairwise_map.mpr (hsorted.imp fun {p q} hlt => ?_)
  rw [pairOrder_eq, Ordering.then_eq_lt, compare_string_eq_lt, compare_string_eq_lt,
    Std.compare_eq_iff_eq] at hlt
  exact hlt

/-- **The dependencies of files agree with the call trees.** Let every symbol have fewer callees than a tree may
have nodes. There is one tree of depth one for each symbol. There is an edge from one file to another exactly if
some tree of depth one that is rooted in the first has a child in the second. The edge counts these children,
there is no edge from a file to itself, and the edges are sorted by their two files. No child that is counted
has a name that the first file defines. -/
theorem fileEdges_are_tree_calls (g : CallGraph)
    (hroom : ∀ i < g.table.size, (g.reachedAt i).length < g.limits.maxTreeNodes) :
    (g.shallowTrees.map (·.root.symbol)).Perm (g.table.symbols.map Symbol.id) ∧
    (∀ a b, a ≠ b →
      ((∃ edge ∈ g.fileDependencies.edges, edge.source = a ∧ edge.target = b)
        ↔ ∃ tree ∈ g.shallowTrees, tree.root.symbol.file = a ∧
            ∃ c ∈ tree.root.children, c.symbol.file = b)) ∧
    (∀ edge ∈ g.fileDependencies.edges, edge.source ≠ edge.target ∧
      edge.calls = (g.callsAcross edge.source edge.target).length) ∧
    g.fileDependencies.edges.Pairwise
      (fun x y => x.source < y.source ∨ x.source = y.source ∧ x.target < y.target) ∧
    ∀ a b, a ≠ b → ∀ c ∈ g.callsAcross a b, ∀ s ∈ g.table.symbols, s.file = a → s.name ≠ c.symbol.name := by
  refine ⟨g.roots_shallowTrees_perm, ?_, ?_, g.fileEdges_pairwise,
    fun a b hne c hc s hs => name_ne_of_mem_callsAcross hc hne hs⟩
  · intro a b hne
    have hpair : (a, b) ∈ g.filePairs ↔ g.callsAcross a b ≠ [] := by
      rw [← List.count_pos_iff, ← length_callsAcross hroom hne, List.length_pos_iff]
    constructor
    · rintro ⟨edge, hedge, rfl, rfl⟩
      obtain ⟨c, hc⟩ := List.exists_mem_of_ne_nil _ (hpair.mp (mem_fileEdges.mp hedge).1)
      obtain ⟨tree, htree, hroot, hc, hchild⟩ := mem_callsAcross.mp hc
      exact ⟨tree, htree, hroot, c, hc, hchild⟩
    · rintro ⟨tree, htree, hroot, c, hc, hchild⟩
      have hcall : c ∈ g.callsAcross a b := mem_callsAcross.mpr ⟨tree, htree, hroot, hc, hchild⟩
      refine ⟨⟨a, b, g.filePairs.count (a, b)⟩, mem_fileEdges.mpr ⟨?_, rfl⟩, rfl, rfl⟩
      exact hpair.mpr (List.ne_nil_of_mem hcall)
  · intro edge hedge
    obtain ⟨hpair, hcalls⟩ := mem_fileEdges.mp hedge
    have hne := ne_of_mem_filePairs hpair
    exact ⟨hne, by rw [hcalls, length_callsAcross hroom hne]⟩

/-- A file whose function calls one function of its own file, though another file has one of that name, and one
that two further files define. -/
def threeFiles : CallGraph :=
  .ofTable
    (.ofFragments [⟨.ofText "n.c" .c [],
      [⟨"f", .function, "a.c", 1, 1, "", "g h"⟩, ⟨"g", .function, "a.c", 2, 2, "", ""⟩,
        ⟨"g", .function, "b.c", 1, 1, "", "h"⟩, ⟨"h", .function, "b.c", 2, 2, "", "f"⟩,
        ⟨"h", .function, "c.c", 1, 1, "", "f g"⟩],
      [], 0⟩])
    { maxTreeNodes := 4 }

/-- The call of the function in its own file makes no edge; that of the name with two symbols makes two. -/
theorem threeFiles_edges_are_tree_calls :
    (∀ i < threeFiles.table.size, (threeFiles.reachedAt i).length < threeFiles.limits.maxTreeNodes) ∧
    threeFiles.fileDependencies.edges = [⟨"a.c", "b.c", 1⟩, ⟨"a.c", "c.c", 1⟩, ⟨"b.c", "a.c", 1⟩,
      ⟨"c.c", "a.c", 2⟩, ⟨"c.c", "b.c", 1⟩] ∧
    (threeFiles.callsAcross "c.c" "a.c").length = 2 ∧
    ∃ tree ∈ threeFiles.shallowTrees, tree.root.symbol.file = "a.c" ∧
      ∃ c ∈ tree.root.children, c.symbol.file = "b.c" := by
  have heval : (List.range threeFiles.table.size).all (fun i =>
        (threeFiles.reachedAt i).length < threeFiles.limits.maxTreeNodes) = true ∧
      threeFiles.fileDependencies.edges = [⟨"a.c", "b.c", 1⟩, ⟨"a.c", "c.c", 1⟩, ⟨"b.c", "a.c", 1⟩,
        ⟨"c.c", "a.c", 2⟩, ⟨"c.c", "b.c", 1⟩] := by decide +kernel
  obtain ⟨hrange, hedges⟩ := heval
  have hroom : ∀ i < threeFiles.table.size,
      (threeFiles.reachedAt i).length < threeFiles.limits.maxTreeNodes := by simpa using hrange
  obtain ⟨-, hedge, hcalls, -, -⟩ := fileEdges_are_tree_calls threeFiles hroom
  rw [hedges] at hedge hcalls
  refine ⟨hroom, hedges, (hcalls ⟨"c.c", "a.c", 2⟩ (by simp)).2.symm, ?_⟩
  exact (hedge "a.c" "b.c" (by decide)).mp ⟨⟨"a.c", "b.c", 1⟩, by simp, rfl, rfl⟩

end CallGraph

end CodeAtlas
