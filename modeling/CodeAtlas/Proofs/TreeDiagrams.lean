import CodeAtlas.Proofs.DiagramText
import CodeAtlas.Proofs.Sequences

/-!
# Two diagrams of the same calls

Call trees are drawn as a flowchart and as a sequence diagram. The flowchart knows a symbol by a text, the sequence
diagram by its identity, and both number a symbol when they first meet it. This file shows that they draw the same
calls between the same symbols.

* `SymbolId.eq_of_display`: a symbol whose name has no parenthesis is told by its text;
* `CallTreeNode.foldl_visits`: what a visit after that of its parent keeps, a walk through a tree keeps;
* `Flowchart.Draws`, `SequenceChart.Draws`: a chart shows what was visited so far, by its numbers at the end;
* `diagrams_draw_same_calls`: the lines of both diagrams, and that their arrows are between the same numbers.
-/

namespace CodeAtlas

/-! ### The text of a symbol -/

/-- A symbol whose name has no parenthesis is told by its text. -/
theorem SymbolId.eq_of_display {a b : SymbolId} (ha : '(' ∉ a.name.toList) (hb : '(' ∉ b.name.toList)
    (h : a.display = b.display) : a = b := by
  obtain ⟨name, file, line⟩ := a
  obtain ⟨name', file', line'⟩ := b
  have htext := congrArg String.toList h
  have hdisplay : ∀ name file : String, ∀ line : Nat, (SymbolId.mk name file line).display.toList
      = (name.toList ++ [' ']) ++ '(' :: (file.toList ++ ':' :: (toString line).toList ++ [')']) := by
    intro name file line
    show (name ++ " (" ++ file ++ ":" ++ toString line ++ ")").toList = _
    simp
  rw [hdisplay, hdisplay] at htext
  have hspace : ∀ {name : String}, '(' ∉ name.toList → '(' ∉ name.toList ++ [' '] := by
    intro name hname
    simpa using hname
  obtain ⟨hname, hrest⟩ := append_cons_inj_of_not_mem (hspace ha) (hspace hb) htext
  obtain rfl : name = name' := String.toList_inj.mp (List.append_cancel_right hname)
  -- the line is what follows the last colon, so the rest is read from its end
  have hback := congrArg List.reverse (List.append_cancel_right hrest)
  simp only [List.reverse_append, List.reverse_cons, List.append_assoc, List.singleton_append] at hback
  have hcolon : ∀ n : Nat, ':' ∉ (toString n).toList.reverse := by
    intro n hn
    exact not_mem_toString (by decide) n (List.mem_reverse.mp hn)
  obtain ⟨hline, hfile⟩ := append_cons_inj_of_not_mem (hcolon line) (hcolon line') hback
  obtain rfl := toString_toList_inj (List.reverse_inj.mp hline)
  obtain rfl : file = file' := String.toList_inj.mp (List.reverse_inj.mp hfile)
  rfl

/-! ### Walks through trees -/

/-- A node of a tree, with its parent. -/
abbrev Visit := CallTreeNode × Option CallTreeNode

/-- The symbols of some visits, in order. -/
def visitedSymbols (visits : List Visit) : List SymbolId :=
  visits.map (·.1.symbol)

/-- The calls among some visits, in order: the node that calls, and the one that is called. -/
def visitedCalls (visits : List Visit) : List (CallTreeNode × CallTreeNode) :=
  visits.filterMap fun visited => visited.2.map (·, visited.1)

/-- The visits on a walk through trees. -/
def visitsOf (trees : List CallTree) : List Visit :=
  trees.flatMap (·.root.visits none)

theorem visitsOf_concat (trees : List CallTree) (tree : CallTree) :
    visitsOf (trees ++ [tree]) = visitsOf trees ++ tree.root.visits none := by
  rw [visitsOf, List.flatMap_append, List.flatMap_singleton]
  rfl

theorem visitedSymbols_append (visits more : List Visit) :
    visitedSymbols (visits ++ more) = visitedSymbols visits ++ visitedSymbols more :=
  List.map_append

theorem visitedSymbols_concat (visits : List Visit) (visited : Visit) :
    visitedSymbols (visits ++ [visited]) = visitedSymbols visits ++ [visited.1.symbol] :=
  visitedSymbols_append visits [visited]

theorem visitedCalls_append (visits more : List Visit) :
    visitedCalls (visits ++ more) = visitedCalls visits ++ visitedCalls more :=
  List.filterMap_append

theorem visitedCalls_concat_root (visits : List Visit) (node : CallTreeNode) :
    visitedCalls (visits ++ [(node, none)]) = visitedCalls visits := by
  rw [visitedCalls_append]
  exact List.append_nil _

theorem visitedCalls_concat_called (visits : List Visit) (node parent : CallTreeNode) :
    visitedCalls (visits ++ [(node, some parent)]) = visitedCalls visits ++ [(parent, node)] :=
  visitedCalls_append visits [(node, some parent)]

namespace CallTreeNode

variable {σ : Type} {step : σ → Visit → σ} {Inv : List Visit → σ → Prop}

/-- A visit keeps an invariant, if the parent was visited before. -/
def KeptByVisit (step : σ → Visit → σ) (Inv : List Visit → σ → Prop) : Prop :=
  ∀ seen s visited, Inv seen s → (∀ p ∈ visited.2, p.symbol ∈ visitedSymbols seen) →
    Inv (seen ++ [visited]) (step s visited)

mutual

/-- **Walks.** What a visit keeps if its parent was visited before, a walk through a tree keeps. -/
theorem foldl_visits (hstep : KeptByVisit step Inv) (node : CallTreeNode) (parent : Option CallTreeNode)
    {seen : List Visit} {s : σ} (h : Inv seen s) (hparent : ∀ p ∈ parent, p.symbol ∈ visitedSymbols seen) :
    Inv (seen ++ node.visits parent) ((node.visits parent).foldl step s) := by
  obtain ⟨symbol, kind, callLine, children, truncated, recursiveCalls⟩ := node
  rw [visits, List.foldl_cons, List.append_cons]
  refine foldl_visitsAll hstep children _ (hstep _ _ _ h hparent) ?_
  rintro p ⟨⟩
  rw [visitedSymbols_concat]
  exact List.mem_append_right _ List.mem_cons_self

theorem foldl_visitsAll (hstep : KeptByVisit step Inv) (nodes : List CallTreeNode) (parent : Option CallTreeNode)
    {seen : List Visit} {s : σ} (h : Inv seen s) (hparent : ∀ p ∈ parent, p.symbol ∈ visitedSymbols seen) :
    Inv (seen ++ visitsAll parent nodes) ((visitsAll parent nodes).foldl step s) := by
  cases nodes with
  | nil =>
    rw [visitsAll, List.append_nil]
    exact h
  | cons node rest =>
    rw [visitsAll, List.foldl_append, ← List.append_assoc]
    refine foldl_visitsAll hstep rest parent (foldl_visits hstep node parent h hparent) ?_
    intro p hp
    rw [visitedSymbols_append]
    exact List.mem_append_left _ (hparent p hp)

end

/-- A walk through trees keeps it too. -/
theorem foldl_visitsOf (hstep : KeptByVisit step Inv) (trees : List CallTree) (s : σ) (h : Inv [] s) :
    Inv (visitsOf trees) ((visitsOf trees).foldl step s) := by
  induction trees using List.reverseRecOn with
  | nil => exact h
  | append_singleton trees tree ih =>
    rw [visitsOf_concat, List.foldl_append]
    refine foldl_visits hstep tree.root none ih ?_
    rintro p ⟨⟩

/-- A node is visited before all below it. -/
theorem visits_eq_cons (node : CallTreeNode) (parent : Option CallTreeNode) :
    ∃ rest, node.visits parent = (node, parent) :: rest := by
  obtain ⟨symbol, kind, callLine, children, truncated, recursiveCalls⟩ := node
  exact ⟨_, visits.eq_1 ..⟩

mutual

/-- Below a parent, every node of a tree is called. -/
theorem length_visitedCalls_visits (node parent : CallTreeNode) :
    (visitedCalls (node.visits (some parent))).length = node.size := by
  obtain ⟨symbol, kind, callLine, children, truncated, recursiveCalls⟩ := node
  have hbelow := length_visitedCalls_visitsAll children
  rw [visits, size, ← hbelow, Nat.add_comm]
  rfl

theorem length_visitedCalls_visitsAll (nodes : List CallTreeNode) (parent : CallTreeNode) :
    (visitedCalls (visitsAll (some parent) nodes)).length = sizeAll nodes := by
  cases nodes with
  | nil => rfl
  | cons node rest =>
    rw [visitsAll, sizeAll, visitedCalls_append, List.length_append, length_visitedCalls_visits node,
      length_visitedCalls_visitsAll rest]

end

/-- In a tree, every node but the root is called. -/
theorem length_visitedCalls_root (node : CallTreeNode) :
    (visitedCalls (node.visits none)).length + 1 = node.size := by
  obtain ⟨symbol, kind, callLine, children, truncated, recursiveCalls⟩ := node
  rw [visits, size, ← length_visitedCalls_visitsAll children, Nat.add_comm]
  rfl

end CallTreeNode

/-! ### Charts that draw what was visited -/

section Charts

variable {all : List SymbolId} {seen : List Visit} {symbols : List SymbolId}

/-- The symbols met so far, and one more, have their final numbers. -/
theorem idxOf_eraseDups_concat {symbol : SymbolId} (hall : (symbols ++ [symbol]).eraseDups <+: all) :
    all.idxOf symbol = if symbol ∈ symbols then symbols.eraseDups.idxOf symbol else symbols.eraseDups.length := by
  rw [idxOf_of_starts hall (List.mem_eraseDups.mpr (by simp)), eraseDups_concat]
  split
  · rfl
  · rename_i hnew
    rw [List.idxOf_append_of_notMem (mt List.mem_eraseDups.mp hnew)]
    simp

/-- A symbol that was met before adds nothing. -/
theorem eraseDups_concat_of_mem {symbol : SymbolId} (h : symbol ∈ symbols) :
    (symbols ++ [symbol]).eraseDups = symbols.eraseDups := by
  rw [eraseDups_concat, if_pos h]

theorem prefix_of_visited_append {more : List Visit} (hall : (visitedSymbols (seen ++ more)).eraseDups <+: all) :
    (visitedSymbols seen).eraseDups <+: all := by
  rw [visitedSymbols_append] at hall
  exact (eraseDups_prefix_append _ _).trans hall

namespace SequenceChart

theorem participant_eraseDups {chart : SequenceChart} {symbol : SymbolId} (h : chart.participants = symbols.eraseDups)
    (hall : (symbols ++ [symbol]).eraseDups <+: all) :
    chart.participant symbol
      = (all.idxOf symbol + 1, { chart with participants := (symbols ++ [symbol]).eraseDups }) := by
  rw [participant, h, findIdx?_beq_eq, idxOf_eraseDups_concat hall, eraseDups_concat]
  by_cases hmem : symbol ∈ symbols
  · rw [if_pos (List.mem_eraseDups.mpr hmem), if_pos hmem, if_pos hmem, ← h]
  · rw [if_neg (mt List.mem_eraseDups.mp hmem), if_neg hmem, if_neg hmem]

/-- The message of a call, by the places of its symbols. -/
def messageOf (all : List SymbolId) (call : CallTreeNode × CallTreeNode) : Message :=
  ⟨all.idxOf call.1.symbol + 1, all.idxOf call.2.symbol + 1, callLabel call.2⟩

theorem visit_root {chart : SequenceChart} (h : chart.participants = symbols.eraseDups) {node : CallTreeNode}
    (hall : (symbols ++ [node.symbol]).eraseDups <+: all) :
    chart.visit (node, none) = { chart with participants := (symbols ++ [node.symbol]).eraseDups } := by
  rw [visit, participant_eraseDups h hall]

theorem visit_called {chart : SequenceChart} (h : chart.participants = symbols.eraseDups) {node parent : CallTreeNode}
    (hparent : parent.symbol ∈ symbols) (hall : (symbols ++ [node.symbol]).eraseDups <+: all) :
    chart.visit (node, some parent)
      = ⟨(symbols ++ [node.symbol]).eraseDups, chart.messages ++ [messageOf all (parent, node)]⟩ := by
  -- the caller has its number, so looking it up changes nothing
  have hagain := eraseDups_concat_of_mem (List.mem_append_left [node.symbol] hparent)
  have hcaller := participant_eraseDups
    (rfl : { chart with participants := (symbols ++ [node.symbol]).eraseDups }.participants = _) (hagain ▸ hall)
  rw [visit, participant_eraseDups h hall]
  dsimp only
  rw [hcaller, hagain]
  rfl

/-- A chart has the symbols met on some visits, and a message for each call. -/
structure Draws (all : List SymbolId) (seen : List Visit) (chart : SequenceChart) : Prop where
  participants : chart.participants = (visitedSymbols seen).eraseDups
  messages : chart.messages = (visitedCalls seen).map (messageOf all)

theorem Draws.visit {chart : SequenceChart} (h : Draws all seen chart) {visited : Visit}
    (hparent : ∀ p ∈ visited.2, p.symbol ∈ visitedSymbols seen)
    (hall : (visitedSymbols (seen ++ [visited])).eraseDups <+: all) :
    Draws all (seen ++ [visited]) (chart.visit visited) := by
  have hsymbols := visitedSymbols_concat seen visited
  rw [hsymbols] at hall
  match visited with
  | (node, none) =>
    rw [visit_root h.participants hall]
    refine ⟨by rw [hsymbols], ?_⟩
    rw [visitedCalls_concat_root]
    exact h.messages
  | (node, some parent) =>
    rw [visit_called h.participants (hparent parent rfl) hall]
    refine ⟨by rw [hsymbols], ?_⟩
    rw [visitedCalls_concat_called, List.map_append, ← h.messages]
    rfl

theorem keptByVisit_draws : CallTreeNode.KeptByVisit SequenceChart.visit
    fun seen chart => (visitedSymbols seen).eraseDups <+: all → Draws all seen chart :=
  fun _ _ _ h hparent hall => (h (prefix_of_visited_append hall)).visit hparent hall

/-- A walk through trees draws all their symbols and calls. -/
theorem draws_trees (trees : List CallTree) (hall : (visitedSymbols (visitsOf trees)).eraseDups <+: all) :
    Draws all (visitsOf trees) ((visitsOf trees).foldl SequenceChart.visit {}) :=
  CallTreeNode.foldl_visitsOf keptByVisit_draws trees {} (fun _ => ⟨rfl, rfl⟩) hall

end SequenceChart

namespace Flowchart

/-- The node of a symbol. -/
def symbolEntry (symbol : SymbolId) : FlowNode :=
  ⟨"symbol:" ++ symbol.display, symbolLabel symbol⟩

theorem findIdx?_key {list : List SymbolId} {symbol : SymbolId} (hsymbol : '(' ∉ symbol.name.toList)
    (hlist : ∀ s ∈ list, '(' ∉ s.name.toList) :
    (list.map symbolEntry).findIdx? (·.key == (symbolEntry symbol).key) = list.findIdx? (· == symbol) := by
  induction list with
  | nil => rfl
  | cons s rest ih =>
    have hkey : ((symbolEntry s).key == (symbolEntry symbol).key) = (s == symbol) := by
      rw [Bool.eq_iff_iff, beq_iff_eq, beq_iff_eq]
      constructor
      · intro h
        have hdisplay : s.display = symbol.display := by
          simpa [symbolEntry, String.append_right_inj] using h
        exact SymbolId.eq_of_display (hlist s List.mem_cons_self) hsymbol hdisplay
      · rintro rfl
        rfl
    rw [List.map_cons, List.findIdx?_cons, List.findIdx?_cons, hkey,
      ih fun s hs => hlist s (List.mem_cons_of_mem _ hs)]

/-- Looking a node up again finds it. -/
theorem node_node (chart : Flowchart) (key label : String) :
    (chart.node key label).2.node key label = chart.node key label := by
  rcases chart.node_cases key label with ⟨i, -, hnode⟩ | ⟨hfind, hnode⟩
  · rw [hnode, hnode]
  · rw [hnode, node, List.findIdx?_append, hfind]
    simp

theorem edge_eraseDups {chart : Flowchart} {edges : List FlowEdge} (h : chart.edges = edges.eraseDups)
    (source target : Nat) (arrow : Arrow) :
    chart.edge source target arrow
      = { chart with edges := (edges ++ [FlowEdge.mk source target arrow]).eraseDups } := by
  have hadd := add_eraseDups edges (FlowEdge.mk source target arrow) fun edges => { chart with edges := edges }
  rw [← h] at hadd
  exact hadd

theorem style_eraseDups {chart : Flowchart} {styles : List (Nat × NodeStyle)} (h : chart.styles = styles.eraseDups)
    (number : Nat) (style : NodeStyle) :
    chart.style number style = { chart with styles := (styles ++ [(number, style)]).eraseDups } := by
  have hadd := add_eraseDups styles (number, style) fun styles => { chart with styles := styles }
  rw [← h] at hadd
  exact hadd

/-- The edge of a call, by the places of its symbols. -/
def edgeOf (all : List SymbolId) (call : CallTreeNode × CallTreeNode) : FlowEdge :=
  ⟨all.idxOf call.1.symbol + 1, all.idxOf call.2.symbol + 1, .call⟩

variable (hnames : ∀ s ∈ all, '(' ∉ s.name.toList)

include hnames

theorem symbolNode_eraseDups {chart : Flowchart} {symbol : SymbolId}
    (h : chart.nodes = symbols.eraseDups.map symbolEntry) (hall : (symbols ++ [symbol]).eraseDups <+: all) :
    chart.symbolNode symbol
      = (all.idxOf symbol + 1, { chart with nodes := (symbols ++ [symbol]).eraseDups.map symbolEntry }) := by
  have hmet : ∀ s ∈ symbols ++ [symbol], '(' ∉ s.name.toList :=
    fun s hs => hnames s (hall.subset (List.mem_eraseDups.mpr hs))
  have hfind : chart.nodes.findIdx? (·.key == "symbol:" ++ symbol.display)
      = symbols.eraseDups.findIdx? (· == symbol) := by
    rw [h]
    refine findIdx?_key (hmet symbol (by simp)) fun s hs => ?_
    exact hmet s (List.mem_append_left _ (List.mem_eraseDups.mp hs))
  rw [symbolNode, node, hfind, findIdx?_beq_eq, idxOf_eraseDups_concat hall, eraseDups_concat]
  by_cases hmem : symbol ∈ symbols
  · rw [if_pos (List.mem_eraseDups.mpr hmem), if_pos hmem, if_pos hmem, ← h]
  · rw [if_neg (mt List.mem_eraseDups.mp hmem), if_neg hmem, if_neg hmem, h, List.length_map, List.map_append]
    rfl

theorem visit_root {chart : Flowchart} (h : chart.nodes = symbols.eraseDups.map symbolEntry) {node : CallTreeNode}
    (hall : (symbols ++ [node.symbol]).eraseDups <+: all) :
    chart.visit (node, none) = { chart with nodes := (symbols ++ [node.symbol]).eraseDups.map symbolEntry } := by
  rw [visit, symbolNode_eraseDups hnames h hall]

theorem visit_called {chart : Flowchart} (h : chart.nodes = symbols.eraseDups.map symbolEntry)
    {calls : List (CallTreeNode × CallTreeNode)} (hcalls : chart.edges = (calls.map (edgeOf all)).eraseDups)
    {node parent : CallTreeNode} (hparent : parent.symbol ∈ symbols)
    (hall : (symbols ++ [node.symbol]).eraseDups <+: all) :
    chart.visit (node, some parent)
      = { chart with
          nodes := (symbols ++ [node.symbol]).eraseDups.map symbolEntry
          edges := ((calls ++ [(parent, node)]).map (edgeOf all)).eraseDups } := by
  -- the caller has its node, so looking it up changes nothing
  have hagain := eraseDups_concat_of_mem (List.mem_append_left [node.symbol] hparent)
  have hcaller := symbolNode_eraseDups hnames
    (rfl : { chart with nodes := (symbols ++ [node.symbol]).eraseDups.map symbolEntry }.nodes = _) (hagain ▸ hall)
  rw [visit, symbolNode_eraseDups hnames h hall]
  dsimp only
  rw [hcaller, hagain]
  rw [List.map_append]
  exact @edge_eraseDups { chart with nodes := (symbols ++ [node.symbol]).eraseDups.map symbolEntry } _ hcalls _ _ _

/-- A chart has a node for each symbol met on some visits, an edge for each call and a mark on each root. -/
structure Draws (all : List SymbolId) (direction : Direction) (seen : List Visit) (roots : List SymbolId)
    (chart : Flowchart) : Prop where
  direction : chart.direction = direction
  nodes : chart.nodes = (visitedSymbols seen).eraseDups.map symbolEntry
  edges : chart.edges = ((visitedCalls seen).map (edgeOf all)).eraseDups
  styles : chart.styles = (roots.map fun root => (all.idxOf root + 1, NodeStyle.root)).eraseDups

theorem Draws.visit {direction : Direction} {roots : List SymbolId} {chart : Flowchart}
    (h : Draws all direction seen roots chart) {visited : Visit}
    (hparent : ∀ p ∈ visited.2, p.symbol ∈ visitedSymbols seen)
    (hall : (visitedSymbols (seen ++ [visited])).eraseDups <+: all) :
    Draws all direction (seen ++ [visited]) roots (chart.visit visited) := by
  have hsymbols := visitedSymbols_concat seen visited
  rw [hsymbols] at hall
  match visited with
  | (node, none) =>
    rw [visit_root hnames h.nodes hall]
    refine ⟨h.direction, by rw [hsymbols], ?_, h.styles⟩
    rw [visitedCalls_concat_root]
    exact h.edges
  | (node, some parent) =>
    rw [visit_called hnames h.nodes h.edges (hparent parent rfl) hall]
    refine ⟨h.direction, by rw [hsymbols], ?_, h.styles⟩
    rw [visitedCalls_concat_called]

theorem keptByVisit_draws {direction : Direction} {roots : List SymbolId} : CallTreeNode.KeptByVisit Flowchart.visit
    fun seen chart => (visitedSymbols seen).eraseDups <+: all → Draws all direction seen roots chart :=
  fun _ _ _ h hparent hall => (h (prefix_of_visited_append hall)).visit hnames hparent hall

omit hnames in
/-- A tree is drawn by a walk through it. -/
theorem tree_eq (chart : Flowchart) (tree : CallTree) :
    chart.tree tree = ((chart.symbolNode tree.root.symbol).1, (tree.root.visits none).foldl visit chart) := by
  have hagain : (chart.symbolNode tree.root.symbol).2.symbolNode tree.root.symbol
      = chart.symbolNode tree.root.symbol := node_node _ _ _
  have hfirst : (chart.symbolNode tree.root.symbol).2.visit (tree.root, none) = chart.visit (tree.root, none) :=
    congrArg Prod.snd hagain
  obtain ⟨rest, hrest⟩ := tree.root.visits_eq_cons none
  show ((chart.symbolNode tree.root.symbol).1,
    (tree.root.visits none).foldl visit (chart.symbolNode tree.root.symbol).2) = _
  rw [hrest, List.foldl_cons, List.foldl_cons, hfirst]

theorem Draws.tree {direction : Direction} {roots : List SymbolId} {chart : Flowchart}
    (h : Draws all direction seen roots chart) (tree : CallTree)
    (hall : (visitedSymbols (seen ++ tree.root.visits none)).eraseDups <+: all) :
    Draws all direction (seen ++ tree.root.visits none) (roots ++ [tree.root.symbol])
      ((chart.tree tree).2.style (chart.tree tree).1 .root) := by
  have hwalk := CallTreeNode.foldl_visits (keptByVisit_draws hnames) tree.root none (fun _ => h) (by rintro p ⟨⟩) hall
  have hroot : (chart.symbolNode tree.root.symbol).1 = all.idxOf tree.root.symbol + 1 := by
    obtain ⟨rest, hrest⟩ := tree.root.visits_eq_cons none
    rw [hrest, List.append_cons] at hall
    have hfirst := prefix_of_visited_append hall
    rw [visitedSymbols_concat] at hfirst
    rw [symbolNode_eraseDups hnames h.nodes hfirst]
  rw [tree_eq, hroot, style_eraseDups hwalk.styles]
  refine ⟨hwalk.direction, hwalk.nodes, hwalk.edges, ?_⟩
  rw [List.map_append]
  rfl

/-- Drawing trees one after the other draws all their symbols and calls, and marks their roots. -/
theorem draws_trees (direction : Direction) (trees : List CallTree)
    (hall : (visitedSymbols (visitsOf trees)).eraseDups <+: all) :
    Draws all direction (visitsOf trees) (trees.map (·.root.symbol))
      (trees.foldl (fun chart tree => (chart.tree tree).2.style (chart.tree tree).1 .root)
        { direction := direction }) := by
  induction trees using List.reverseRecOn with
  | nil => exact ⟨rfl, rfl, rfl, rfl⟩
  | append_singleton trees tree ih =>
    rw [visitsOf_concat] at hall ⊢
    rw [List.foldl_append, List.map_append]
    exact (ih (prefix_of_visited_append hall)).tree hnames tree hall

end Flowchart

end Charts

/-! ### The two diagrams -/

namespace CallTreeResult

/-- The symbols of the trees, in the order in which they are first met. -/
def symbols (r : CallTreeResult) : List SymbolId :=
  (visitedSymbols (visitsOf r.trees)).eraseDups

/-- The calls of the trees: each node but the roots, after the node that calls it. -/
def calls (r : CallTreeResult) : List (CallTreeNode × CallTreeNode) :=
  visitedCalls (visitsOf r.trees)

/-- The number of a symbol, counted from one. -/
def number (r : CallTreeResult) (symbol : SymbolId) : Nat :=
  r.symbols.idxOf symbol + 1

/-- The calls from symbol to symbol, each once. -/
def symbolCalls (r : CallTreeResult) : List (SymbolId × SymbolId) :=
  (r.calls.map fun call => (call.1.symbol, call.2.symbol)).eraseDups

/-- The calls from symbol to symbol by their numbers, each once. -/
def arrows (r : CallTreeResult) : List (Nat × Nat) :=
  r.symbolCalls.map fun call => (r.number call.1, r.number call.2)

/-- The lines of a flowchart: a node for each symbol, an arrow for each call from symbol to symbol, and the marks of
the roots. -/
def flowLines (r : CallTreeResult) (direction : Direction) : List String :=
  ("graph " ++ direction.code) ::
    r.symbols.zipIdx.map (fun (symbol, i) =>
      "    n" ++ toString (i + 1) ++ "[\"" ++ Flowchart.symbolLabel symbol ++ "\"]") ++
    r.arrows.map (fun (source, target) => "    n" ++ toString source ++ " --> n" ++ toString target) ++
    (r.trees.map fun tree => r.number tree.root.symbol).eraseDups.map (fun root =>
      "    style n" ++ toString root ++ " " ++ NodeStyle.root.code)

/-- The lines of a sequence diagram: a participant for each symbol, and a message for each call. -/
def sequenceLines (r : CallTreeResult) : List String :=
  "sequenceDiagram" ::
    r.symbols.zipIdx.map (fun (symbol, i) =>
      "    participant p" ++ toString (i + 1) ++ " as " ++ Flowchart.symbolLabel symbol) ++
    r.calls.map (fun (caller, called) =>
      "    p" ++ toString (r.number caller.symbol) ++ "->>p" ++ toString (r.number called.symbol) ++ ": " ++
        SequenceChart.callLabel called)

theorem caller_mem_symbols {r : CallTreeResult} {call : CallTreeNode × CallTreeNode} (h : call ∈ r.calls) :
    call.1.symbol ∈ r.symbols := by
  have hkept : CallTreeNode.KeptByVisit (fun (_ : Unit) _ => ())
      fun seen _ => ∀ call ∈ visitedCalls seen, call.1.symbol ∈ visitedSymbols seen := by
    intro seen _ visited hseen hparent call hcall
    rw [visitedSymbols_concat]
    refine List.mem_append_left _ ?_
    match visited with
    | (node, none) =>
      rw [visitedCalls_concat_root] at hcall
      exact hseen call hcall
    | (node, some parent) =>
      rw [visitedCalls_concat_called, List.mem_append, List.mem_singleton] at hcall
      rcases hcall with hcall | rfl
      · exact hseen call hcall
      · exact hparent parent rfl
  refine List.mem_eraseDups.mpr (CallTreeNode.foldl_visitsOf hkept r.trees () ?_ call h)
  intro call hcall
  cases hcall

theorem called_mem_symbols {r : CallTreeResult} {call : CallTreeNode × CallTreeNode} (h : call ∈ r.calls) :
    call.2.symbol ∈ r.symbols := by
  obtain ⟨visited, hvisited, hcall⟩ := List.mem_filterMap.mp h
  obtain ⟨parent, -, rfl⟩ := Option.map_eq_some_iff.mp hcall
  exact List.mem_eraseDups.mpr (List.mem_map_of_mem hvisited)

theorem number_inj {r : CallTreeResult} {a b : SymbolId} (ha : a ∈ r.symbols) (h : r.number a = r.number b) :
    a = b :=
  (List.idxOf_inj ha).mp (Nat.succ.inj h)

/-- The numbers of a call tell its symbols. -/
theorem numbers_inj {r : CallTreeResult} {a b : SymbolId × SymbolId} (ha : a ∈ r.symbolCalls)
    (h : (r.number a.1, r.number a.2) = (r.number b.1, r.number b.2)) : a = b := by
  obtain ⟨hcaller, hcalled⟩ := Prod.mk.inj h
  obtain ⟨call, hcall, rfl⟩ := List.mem_map.mp (List.mem_eraseDups.mp ha)
  exact Prod.ext (number_inj (caller_mem_symbols hcall) hcaller) (number_inj (called_mem_symbols hcall) hcalled)

theorem nodup_arrows (r : CallTreeResult) : r.arrows.Nodup :=
  (nodup_eraseDups _).map_on fun _ ha _ _ h => numbers_inj ha h

/-- The arrows are between the same numbers as the messages. -/
theorem mem_arrows {r : CallTreeResult} {pair : Nat × Nat} :
    pair ∈ r.arrows ↔ pair ∈ r.calls.map fun call => (r.number call.1.symbol, r.number call.2.symbol) := by
  simp only [arrows, symbolCalls, List.mem_map, List.mem_eraseDups]
  constructor
  · rintro ⟨_, ⟨call, hcall, rfl⟩, rfl⟩
    exact ⟨call, hcall, rfl⟩
  · rintro ⟨call, hcall, rfl⟩
    exact ⟨_, ⟨call, hcall, rfl⟩, rfl⟩

/-- What is drawn of the calls is drawn of the calls from symbol to symbol. -/
theorem eraseDups_edges (r : CallTreeResult) :
    (r.calls.map (Flowchart.edgeOf r.symbols)).eraseDups = r.arrows.map fun pair => ⟨pair.1, pair.2, .call⟩ := by
  have hedges : r.calls.map (Flowchart.edgeOf r.symbols)
      = (r.calls.map fun call => (call.1.symbol, call.2.symbol)).map
        fun pair => ⟨r.number pair.1, r.number pair.2, .call⟩ := by
    rw [List.map_map]
    rfl
  rw [hedges, eraseDups_map, arrows, List.map_map]
  · rfl
  · intro a ha b _ h
    refine numbers_inj (List.mem_eraseDups.mpr ha) ?_
    rw [(FlowEdge.mk.inj h).1, (FlowEdge.mk.inj h).2.1]

theorem eraseDups_marks (r : CallTreeResult) :
    ((r.trees.map (·.root.symbol)).map fun root => (r.symbols.idxOf root + 1, NodeStyle.root)).eraseDups
      = (r.trees.map fun tree => r.number tree.root.symbol).eraseDups.map (·, NodeStyle.root) := by
  rw [← eraseDups_map fun a _ b _ h => (Prod.mk.inj h).1, List.map_map, List.map_map]
  rfl

/-- The number of calls is that of all nodes but the roots. -/
theorem length_calls (r : CallTreeResult) :
    r.calls.length + r.trees.length = CallTreeNode.sizeAll (r.trees.map (·.root)) := by
  rw [calls]
  induction r.trees with
  | nil => rfl
  | cons tree rest ih =>
    have htree := tree.root.length_visitedCalls_root
    rw [visitsOf, List.flatMap_cons, visitedCalls_append, List.length_append, List.map_cons, CallTreeNode.sizeAll,
      ← htree, ← ih, List.length_cons, visitsOf]
    omega

theorem flowchart_eq (r : CallTreeResult) (direction : Direction)
    (hnames : ∀ symbol ∈ r.symbols, '(' ∉ symbol.name.toList) :
    r.flowchart direction =
      { direction := direction
        nodes := r.symbols.map Flowchart.symbolEntry
        edges := r.arrows.map fun pair => ⟨pair.1, pair.2, .call⟩
        styles := (r.trees.map fun tree => r.number tree.root.symbol).eraseDups.map (·, NodeStyle.root) } := by
  have hdraws := Flowchart.draws_trees hnames direction r.trees (List.prefix_refl _)
  have hflowchart : r.flowchart direction
      = ⟨(r.flowchart direction).direction, (r.flowchart direction).nodes, (r.flowchart direction).edges,
        (r.flowchart direction).styles⟩ := rfl
  rw [hflowchart]
  congr 1
  · exact hdraws.direction
  · exact hdraws.nodes
  · exact hdraws.edges.trans r.eraseDups_edges
  · exact hdraws.styles.trans r.eraseDups_marks

theorem lines_flowchart (r : CallTreeResult) (direction : Direction)
    (hnames : ∀ symbol ∈ r.symbols, '(' ∉ symbol.name.toList) :
    (r.flowchart direction).lines = r.flowLines direction := by
  have hnode : ∀ symbol i, Flowchart.nodeLine i (Flowchart.symbolEntry symbol)
      = "    n" ++ toString i ++ "[\"" ++ Flowchart.symbolLabel symbol ++ "\"]" := by
    intro symbol i
    simp [← String.toList_inj, Flowchart.nodeLine, Flowchart.nodeName, Flowchart.symbolEntry]
  have hedge : ∀ source target, Flowchart.edgeLine ⟨source, target, .call⟩
      = "    n" ++ toString source ++ " --> n" ++ toString target := by
    intro source target
    simp [← String.toList_inj, Flowchart.edgeLine, Flowchart.nodeName, Arrow.token]
  have hstyle : ∀ root, Flowchart.styleLine (root, .root)
      = "    style n" ++ toString root ++ " " ++ NodeStyle.root.code := by
    intro root
    simp [← String.toList_inj, Flowchart.styleLine, Flowchart.nodeName]
  rw [flowchart_eq r direction hnames, Flowchart.lines, Flowchart.nodeLines, flowLines, List.zipIdx_map, List.map_map,
    List.map_map, List.map_map]
  simp only [Function.comp_def, Prod.map, id_eq, hnode, hedge, hstyle]

theorem sequenceChart_eq (r : CallTreeResult) :
    r.sequenceChart = ⟨r.symbols, r.calls.map (SequenceChart.messageOf r.symbols)⟩ := by
  have hdraws := SequenceChart.draws_trees r.trees (List.prefix_refl _)
  have hchart : r.sequenceChart = ⟨r.sequenceChart.participants, r.sequenceChart.messages⟩ := rfl
  rw [hchart]
  congr 1
  · exact hdraws.participants
  · exact hdraws.messages

theorem linesOf_sequenceChart (r : CallTreeResult) :
    SequenceChart.linesOf (r.sequenceChart.participants.map Flowchart.symbolLabel) r.sequenceChart.messages
      = r.sequenceLines := by
  rw [sequenceChart_eq, SequenceChart.linesOf, sequenceLines, List.zipIdx_map, List.map_map, List.map_map]
  rfl

end CallTreeResult

/-- **Both diagrams draw the same calls.** The flowchart has one node for each symbol, in the order in which the
symbols are first met, and one arrow for each call from symbol to symbol, in the order of the first such calls. The
sequence diagram has the same symbols with the same numbers, and one message for each node that is not a root. An
arrow stands between two numbers just if a message does. -/
theorem diagrams_draw_same_calls (r : CallTreeResult) (direction : Direction) (htrees : r.trees ≠ [])
    (hnames : ∀ symbol ∈ r.symbols, '(' ∉ symbol.name.toList) :
    ((r.diagram direction).text = "\n".intercalate (r.flowLines direction) ∧
      (r.diagram direction).nodeCount = r.symbols.length ∧ (r.diagram direction).edgeCount = r.arrows.length) ∧
    (r.sequenceDiagram.text = "\n".intercalate r.sequenceLines ∧
      r.sequenceDiagram.nodeCount = r.symbols.length ∧ r.sequenceDiagram.edgeCount = r.calls.length) ∧
    (r.arrows.Nodup ∧ r.calls.length + r.trees.length = CallTreeNode.sizeAll (r.trees.map (·.root))) ∧
    ∀ pair, pair ∈ r.arrows ↔
      pair ∈ r.calls.map fun call => (r.number call.1.symbol, r.number call.2.symbol) := by
  have hsome : ¬r.trees.isEmpty = true := fun h => htrees (List.isEmpty_iff.mp h)
  rw [CallTreeResult.diagram, if_neg hsome, CallTreeResult.sequenceDiagram, if_neg hsome]
  refine ⟨⟨?_, ?_, ?_⟩, ⟨?_, ?_, ?_⟩, ⟨r.nodup_arrows, r.length_calls⟩, fun pair => CallTreeResult.mem_arrows⟩
  · exact congrArg ("\n".intercalate ·) (r.lines_flowchart direction hnames)
  · rw [r.flowchart_eq direction hnames]
    exact List.length_map _
  · rw [r.flowchart_eq direction hnames]
    exact List.length_map _
  · exact congrArg ("\n".intercalate ·) r.linesOf_sequenceChart
  · rw [r.sequenceChart_eq]
    exact List.length_map _
  · rw [r.sequenceChart_eq]
    exact List.length_map _

/-- Two functions of one name, the first of which calls a function twice that the second calls once. -/
def sharedCalls : CallTreeResult where
  symbol := "run"
  depth := 1
  trees :=
    [⟨⟨⟨"run", "a.c", 1⟩, .function, none,
        [⟨⟨"log", "c.c", 7⟩, .function, some 2, [], false, []⟩,
          ⟨⟨"log", "c.c", 7⟩, .function, some 3, [], false, []⟩], false, []⟩, 1⟩,
      ⟨⟨⟨"run", "b.c", 4⟩, .function, none,
        [⟨⟨"log", "c.c", 7⟩, .function, some 5, [], false, []⟩], false, []⟩, 1⟩]
  status := .found

/-- The function that is called three times is one node with two arrows, and one participant with three messages. -/
theorem sharedCalls_drawn :
    (sharedCalls.trees ≠ [] ∧ ∀ symbol ∈ sharedCalls.symbols, '(' ∉ symbol.name.toList) ∧
    (sharedCalls.diagram .topDown).text = "\n".intercalate
      ["graph TD", "    n1[\"run<br/>a.c:1\"]", "    n2[\"log<br/>c.c:7\"]", "    n3[\"run<br/>b.c:4\"]",
        "    n1 --> n2", "    n3 --> n2",
        "    style n1 fill:#f9f,stroke:#333,stroke-width:4px", "    style n3 fill:#f9f,stroke:#333,stroke-width:4px"] ∧
    sharedCalls.sequenceDiagram.text = "\n".intercalate
      ["sequenceDiagram", "    participant p1 as run<br/>a.c:1", "    participant p2 as log<br/>c.c:7",
        "    participant p3 as run<br/>b.c:4", "    p1->>p2: log (line 2)", "    p1->>p2: log (line 3)",
        "    p3->>p2: log (line 5)"] := by
  have hsymbols : sharedCalls.symbols = [⟨"run", "a.c", 1⟩, ⟨"log", "c.c", 7⟩, ⟨"run", "b.c", 4⟩] := by decide
  have hnames : ∀ symbol ∈ sharedCalls.symbols, '(' ∉ symbol.name.toList := by
    rw [hsymbols]
    simp
  obtain ⟨⟨hflow, -⟩, ⟨hsequence, -⟩, -⟩ :=
    diagrams_draw_same_calls sharedCalls .topDown (List.cons_ne_nil _ _) hnames
  refine ⟨⟨List.cons_ne_nil _ _, hnames⟩, hflow.trans ?_, hsequence.trans ?_⟩
  · decide +kernel
  · decide +kernel

end CodeAtlas
