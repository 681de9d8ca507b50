import CodeAtlas.Proofs.TableIdentity
import CodeAtlas.Proofs.TreeDiagrams
import Mathlib.Data.String.Basic
import Mathlib.Order.Bounds.Basic

/-!
# Where includes lead

A chart of includes has an edge from a file to each of its targets. A target is meant to lead to the file that it names:
the file with that key, failing that the first file whose key ends with a slash and the target, failing that a node
outside. The chart instead takes the first file in the order of the keys that fits in either way, and it keeps files and
targets outside under keys of one kind. This file says what the chart draws, and when that is what was meant.

* `IncludeMap.Names`: the end that a target names;
* `IncludeMap.names_resolve_iff`: the end that the chart takes is this one unless an earlier file overshadows it;
* `IncludeMap.drawsEnds_flowchart`: the nodes and edges of the chart, over all maps;
* `IncludeMap.includes_drawn_iff`: the chart draws the links that were meant just if no target is overshadowed and no
  file has the key of a target outside.
-/

namespace CodeAtlas

/-- In a list in order, the first element that passes a test is the least one that does. -/
theorem find?_eq_some_iff_isLeast {list : List String} (hlist : list.Pairwise (· < ·)) {p : String → Bool}
    {a : String} :
    list.find? p = some a ↔ IsLeast {b | b ∈ list ∧ p b = true} a := by
  induction list with
  | nil => exact ⟨fun h => (by cases h), fun h => (by cases h.1.1)⟩
  | cons b rest ih =>
    obtain ⟨hb, hrest⟩ := List.pairwise_cons.mp hlist
    by_cases hp : p b = true
    · rw [List.find?_cons_of_pos hp, Option.some_inj]
      have hleast : IsLeast {c | c ∈ b :: rest ∧ p c = true} b := by
        refine ⟨⟨List.mem_cons_self, hp⟩, ?_⟩
        intro c hc
        rcases List.mem_cons.mp hc.1 with heq | hmem
        · exact heq.ge
        · exact (hb c hmem).le
      constructor
      · intro h
        rw [← h]
        exact hleast
      · intro h
        exact hleast.unique h
    · have hsame : {c | c ∈ b :: rest ∧ p c = true} = {c | c ∈ rest ∧ p c = true} := by
        ext c
        constructor
        · intro hc
          rcases List.mem_cons.mp hc.1 with heq | hmem
          · exact absurd (heq ▸ hc.2) hp
          · exact ⟨hmem, hc.2⟩
        · intro hc
          exact ⟨List.mem_cons_of_mem b hc.1, hc.2⟩
      rw [List.find?_cons_of_neg hp, ih hrest, hsame]

/-- Where an edge of a chart of includes ends: at a file, or at a target outside. -/
inductive IncludeEnd where
  | file (key : String)
  | external (target : String)
deriving DecidableEq, Repr

namespace IncludeEnd

/-- The key or the target, which the node of an end shows. -/
def text : IncludeEnd → String
  | file key => key
  | external target => target

/-- What the node of an end is known by. -/
def key : IncludeEnd → String
  | file key => key
  | external target => "include:" ++ target

/-- The node of an end. -/
def node (e : IncludeEnd) : FlowNode :=
  ⟨e.key, sanitizeLabel e.text⟩

theorem key_node (e : IncludeEnd) : e.node.key = e.key := rfl

/-- Two ends share a key only if one is a file with the key of the other, a target outside. -/
theorem eq_or_of_key_eq {a b : IncludeEnd} (h : a.key = b.key) :
    a = b ∨ ∃ target, (a = external target ∧ b = file ("include:" ++ target)) ∨
      (a = file ("include:" ++ target) ∧ b = external target) := by
  cases a with
  | file k =>
    cases b with
    | file l => exact .inl (congrArg file h)
    | external t => exact .inr ⟨t, .inr ⟨congrArg file h, rfl⟩⟩
  | external t =>
    cases b with
    | file l => exact .inr ⟨t, .inl ⟨rfl, congrArg file h.symm⟩⟩
    | external u => exact .inl (congrArg external (String.append_right_inj _ |>.mp h))

end IncludeEnd

namespace IncludeMap

variable (includes : IncludeMap)

/-! ### The end that a target names -/

/-- The files whose keys end with a slash and the target. -/
def suffixKeys (target : String) : Set String :=
  {key | key ∈ includes ∧ '/' :: target.toList <:+ key.toList}

/-- The file with the target as its key; failing that, the first file whose key ends with a slash and the target;
failing that, the target itself, outside. -/
inductive Names (target : String) : IncludeEnd → Prop
  | exact (h : target ∈ includes) : Names target (.file target)
  | ending {key : String} (hnot : target ∉ includes) (h : IsLeast (includes.suffixKeys target) key) :
    Names target (.file key)
  | outside (hnot : target ∉ includes) (h : includes.suffixKeys target = ∅) : Names target (.external target)

/-- A file has the target as its key, but another one, whose key ends with it, comes first. -/
def Overshadowed (target : String) : Prop :=
  target ∈ includes ∧ ∃ key ∈ includes.suffixKeys target, key < target

/-- The end that the chart takes for a target. -/
def resolve (target : String) : IncludeEnd :=
  match includes.resolve? target with
  | some key => .file key
  | none => .external target

variable {includes}

theorem keys_pairwise : includes.keys.Pairwise (· < ·) :=
  Std.ExtTreeMap.ordered_keys.imp fun hab => compare_string_eq_lt.mp hab

theorem resolve?_eq_some_iff {target key : String} :
    includes.resolve? target = some key ↔
      IsLeast {k | k ∈ includes ∧ (k = target ∨ k ∈ includes.suffixKeys target)} key := by
  rw [resolve?, find?_eq_some_iff_isLeast keys_pairwise]
  have hset : {k | k ∈ includes.keys ∧ (k == target || ('/' :: target.toList).isSuffixOf k.toList) = true}
      = {k | k ∈ includes ∧ (k = target ∨ k ∈ includes.suffixKeys target)} := by
    ext k
    simp only [Set.mem_ofPred_eq, suffixKeys, Std.ExtTreeMap.mem_keys, Bool.or_eq_true, beq_iff_eq,
      List.isSuffixOf_iff_suffix]
    tauto
  rw [hset]

theorem resolve?_eq_none_iff {target : String} :
    includes.resolve? target = none ↔ target ∉ includes ∧ includes.suffixKeys target = ∅ := by
  rw [resolve?, List.find?_eq_none, Set.eq_empty_iff_forall_notMem]
  simp only [Std.ExtTreeMap.mem_keys, Bool.or_eq_true, beq_iff_eq, List.isSuffixOf_iff_suffix, not_or, suffixKeys,
    Set.mem_ofPred_eq, not_and]
  constructor
  · intro h
    exact ⟨fun htarget => (h target htarget).1 rfl, fun key hkey => (h key hkey).2⟩
  · intro h key hkey
    exact ⟨fun heq => h.1 (heq ▸ hkey), h.2 key hkey⟩

instance (target : String) : Decidable (includes.Overshadowed target) :=
  decidable_of_iff
    (target ∈ includes ∧
      ∃ key ∈ includes.keys, ('/' :: target.toList).isSuffixOf key.toList = true ∧ key < target) <| by
    simp only [Overshadowed, suffixKeys, Set.mem_ofPred_eq, Std.ExtTreeMap.mem_keys, List.isSuffixOf_iff_suffix,
      and_assoc]

/-- A target names one end. -/
theorem Names.unique {target : String} {a b : IncludeEnd} (ha : includes.Names target a)
    (hb : includes.Names target b) : a = b := by
  cases ha with
  | exact h =>
    cases hb with
    | exact => rfl
    | ending hnot => exact absurd h hnot
    | outside hnot => exact absurd h hnot
  | ending hnot h =>
    cases hb with
    | exact hmem => exact absurd hmem hnot
    | ending _ h' => rw [h.unique h']
    | outside _ hnone =>
      rw [hnone] at h
      exact absurd h.1 (Set.notMem_empty _)
  | outside hnot hnone =>
    cases hb with
    | exact hmem => exact absurd hmem hnot
    | ending _ h =>
      rw [hnone] at h
      exact absurd h.1 (Set.notMem_empty _)
    | outside => rfl

/-- **What the chart takes for a target.** It is the end that the target names unless an earlier file overshadows
it. -/
theorem names_resolve_iff {target : String} :
    includes.Names target (includes.resolve target) ↔ ¬includes.Overshadowed target := by
  rw [resolve]
  cases hresolve : includes.resolve? target with
  | none =>
    obtain ⟨hnot, hnone⟩ := resolve?_eq_none_iff.mp hresolve
    exact ⟨fun _ hshadow => hnot hshadow.1, fun _ => .outside hnot hnone⟩
  | some key =>
    have hleast := resolve?_eq_some_iff.mp hresolve
    by_cases hmem : target ∈ includes
    · constructor
      · intro hnames hshadow
        obtain ⟨-, earlier, hearlier, hlt⟩ := hshadow
        obtain rfl : key = target := by
          have hsame := hnames.unique (.exact hmem)
          cases hsame
          rfl
        exact absurd (hleast.2 ⟨hearlier.1, .inr hearlier⟩) (not_le_of_gt hlt)
      · intro hshadow
        have hle : key ≤ target := hleast.2 ⟨hmem, .inl rfl⟩
        rcases hleast.1.2 with heq | hsuffix
        · rw [heq]
          exact .exact hmem
        · rcases hle.eq_or_lt with heq | hlt
          · rw [heq]
            exact .exact hmem
          · exact absurd ⟨hmem, key, hsuffix, hlt⟩ hshadow
    · refine ⟨fun _ hshadow => hmem hshadow.1, fun _ => .ending hmem ⟨?_, ?_⟩⟩
      · rcases hleast.1.2 with heq | hsuffix
        · exact absurd (heq ▸ hleast.1.1) hmem
        · exact hsuffix
      · intro other hother
        exact hleast.2 ⟨hother.1, .inr hother⟩

/-- A key that ends with another one ends with all that it ends with. -/
theorem suffixKeys_trans {target key other : String} (hkey : key ∈ includes.suffixKeys target)
    (hother : other ∈ includes.suffixKeys key) : other ∈ includes.suffixKeys target :=
  ⟨hother.1, hkey.2.trans ((List.suffix_cons '/' key.toList).trans hother.2)⟩

/-- No target leads to a file that is overshadowed. -/
theorem resolve?_ne_of_overshadowed {key : String} (h : includes.Overshadowed key) (target : String) :
    includes.resolve? target ≠ some key := by
  intro hresolve
  have hleast := resolve?_eq_some_iff.mp hresolve
  obtain ⟨-, earlier, hearlier, hlt⟩ := h
  -- the earlier file fits each target that the later one fits
  have hfits : earlier ∈ includes.suffixKeys target := by
    rcases hleast.1.2 with heq | hsuffix
    · rw [← heq]
      exact hearlier
    · exact suffixKeys_trans hsuffix hearlier
  exact absurd (hleast.2 ⟨hearlier.1, .inr hfits⟩) (not_le_of_gt hlt)

end IncludeMap

/-! ### Charts of ends and links -/

namespace Flowchart

variable {ends : List IncludeEnd} {links : List (IncludeEnd × IncludeEnd)} {chart : Flowchart}

/-- The number of an end among those met so far, which is that of the first end with its key. -/
def endNumber (ends : List IncludeEnd) (e : IncludeEnd) : Nat :=
  (ends.map (·.key)).eraseDups.idxOf e.key + 1

/-- The edge of a link, by the numbers of its ends. -/
def linkEdge (ends : List IncludeEnd) (link : IncludeEnd × IncludeEnd) : FlowEdge :=
  ⟨endNumber ends link.1, endNumber ends link.2, .call⟩

/-- A chart draws the ends and the links that were met so far, as far as their keys tell them apart. -/
structure DrawsEnds (ends : List IncludeEnd) (links : List (IncludeEnd × IncludeEnd)) (chart : Flowchart) : Prop where
  keys : chart.nodes.map (·.key) = (ends.map (·.key)).eraseDups
  nodes : ∀ node ∈ chart.nodes, ∃ e ∈ ends, e.node = node
  linked : ∀ link ∈ links, link.1 ∈ ends ∧ link.2 ∈ ends
  edges : chart.edges = (links.map (linkEdge ends)).eraseDups
  styles : chart.styles = []

/-- An end keeps its number while others are met. -/
theorem endNumber_append {e : IncludeEnd} (h : e ∈ ends) (more : List IncludeEnd) :
    endNumber (ends ++ more) e = endNumber ends e := by
  have hmem : e.key ∈ (ends.map (·.key)).eraseDups := List.mem_eraseDups.mpr (List.mem_map_of_mem h)
  rw [endNumber, endNumber, List.map_append, idxOf_of_starts (eraseDups_prefix_append _ _) hmem]

/-- So the links between the ends keep their edges. -/
theorem linkEdges_append (h : ∀ link ∈ links, link.1 ∈ ends ∧ link.2 ∈ ends) (more : List IncludeEnd) :
    links.map (linkEdge (ends ++ more)) = links.map (linkEdge ends) := by
  refine List.map_congr_left fun link hlink => ?_
  obtain ⟨hsource, htarget⟩ := h link hlink
  rw [linkEdge, linkEdge, endNumber_append hsource, endNumber_append htarget]

theorem drawsEnds_empty (direction : Direction) : DrawsEnds [] [] { direction := direction } where
  keys := rfl
  nodes _ h := by cases h
  linked _ h := by cases h
  edges := rfl
  styles := rfl

/-- Looking an end up gives its number, and the end has been met from then on. -/
theorem DrawsEnds.node (h : DrawsEnds ends links chart) (e : IncludeEnd) :
    (chart.node e.key (sanitizeLabel e.text)).1 = endNumber (ends ++ [e]) e ∧
      DrawsEnds (ends ++ [e]) links (chart.node e.key (sanitizeLabel e.text)).2 := by
  have hfind : chart.nodes.findIdx? (·.key == e.key)
      = if e.key ∈ ends.map (·.key) then some ((ends.map (·.key)).eraseDups.idxOf e.key) else none := by
    have hkeys : chart.nodes.findIdx? (·.key == e.key) = (chart.nodes.map (·.key)).findIdx? (· == e.key) := by
      rw [List.findIdx?_map]
      rfl
    rw [hkeys, h.keys, findIdx?_beq_eq]
    simp only [List.mem_eraseDups]
  have hlinked : ∀ link ∈ links, link.1 ∈ ends ++ [e] ∧ link.2 ∈ ends ++ [e] := fun link hlink =>
    ⟨List.mem_append_left _ (h.linked link hlink).1, List.mem_append_left _ (h.linked link hlink).2⟩
  have hedges : chart.edges = (links.map (linkEdge (ends ++ [e]))).eraseDups := by
    rw [linkEdges_append h.linked, h.edges]
  have hold : ∀ node ∈ chart.nodes, ∃ e' ∈ ends ++ [e], e'.node = node := by
    intro node hnode
    obtain ⟨e', he', heq⟩ := h.nodes node hnode
    exact ⟨e', List.mem_append_left _ he', heq⟩
  by_cases hmem : e.key ∈ ends.map (·.key)
  · have hsame : ((ends ++ [e]).map (·.key)).eraseDups = (ends.map (·.key)).eraseDups := by
      rw [List.map_append, List.map_singleton, eraseDups_concat, if_pos hmem]
    rw [Flowchart.node, hfind, if_pos hmem, endNumber, hsame]
    exact ⟨rfl, {
      keys := by rw [hsame, h.keys]
      nodes := hold
      linked := hlinked
      edges := hedges
      styles := h.styles }⟩
  · have hmore : ((ends ++ [e]).map (·.key)).eraseDups = (ends.map (·.key)).eraseDups ++ [e.key] := by
      rw [List.map_append, List.map_singleton, eraseDups_concat, if_neg hmem]
    have hlength : chart.nodes.length = (ends.map (·.key)).eraseDups.length := by
      rw [← h.keys, List.length_map]
    have hidx : ((ends.map (·.key)).eraseDups ++ [e.key]).idxOf e.key = chart.nodes.length := by
      rw [List.idxOf_append_of_notMem (mt List.mem_eraseDups.mp hmem), hlength]
      simp
    rw [Flowchart.node, hfind, if_neg hmem, endNumber, hmore, hidx]
    refine ⟨rfl, {
      keys := by rw [hmore, List.map_append, h.keys]; rfl
      nodes := ?_
      linked := hlinked
      edges := hedges
      styles := h.styles }⟩
    intro node hnode
    rcases List.mem_append.mp hnode with hnode | hnode
    · exact hold node hnode
    · rw [List.mem_singleton.mp hnode]
      exact ⟨e, List.mem_append_right _ (List.mem_singleton_self e), rfl⟩

/-- An edge between two ends draws their link. -/
theorem DrawsEnds.edge (h : DrawsEnds ends links chart) {source target : IncludeEnd} (hsource : source ∈ ends)
    (htarget : target ∈ ends) :
    DrawsEnds ends (links ++ [(source, target)])
      (chart.edge (endNumber ends source) (endNumber ends target) .call) := by
  rw [edge_eraseDups h.edges]
  refine { h with linked := ?_, edges := ?_ }
  · intro link hlink
    rcases List.mem_append.mp hlink with hlink | hlink
    · exact h.linked link hlink
    · rw [List.mem_singleton.mp hlink]
      exact ⟨hsource, htarget⟩
  · rw [List.map_append]
    rfl

end Flowchart

namespace IncludeMap

open Flowchart (DrawsEnds endNumber linkEdge)

variable (includes : IncludeMap)

theorem addTarget_eq (source : Nat) (chart : Flowchart) (target : String) :
    includes.addTarget source chart target =
      let found := chart.node (includes.resolve target).key (sanitizeLabel (includes.resolve target).text)
      found.2.edge source found.1 .call := by
  rw [addTarget, resolve]
  cases includes.resolve? target with
  | none => rfl
  | some key => rfl

/-- The ends that a file and its targets add. -/
def entryEnds (entry : String × List String) : List IncludeEnd :=
  .file entry.1 :: entry.2.map includes.resolve

/-- The links that a file and its targets add. -/
def entryLinks (entry : String × List String) : List (IncludeEnd × IncludeEnd) :=
  entry.2.map fun target => (.file entry.1, includes.resolve target)

/-- One target adds its end and its link. -/
theorem drawsEnds_addTarget {ends : List IncludeEnd} {links : List (IncludeEnd × IncludeEnd)} {chart : Flowchart}
    (h : DrawsEnds ends links chart) {source : IncludeEnd} (hsource : source ∈ ends) (target : String) :
    DrawsEnds (ends ++ [includes.resolve target]) (links ++ [(source, includes.resolve target)])
      (includes.addTarget (endNumber ends source) chart target) := by
  obtain ⟨hnumber, hnode⟩ := h.node (includes.resolve target)
  rw [addTarget_eq]
  show DrawsEnds _ _ (Flowchart.edge _ _ _ _)
  rw [hnumber, ← Flowchart.endNumber_append hsource [includes.resolve target]]
  exact hnode.edge (List.mem_append_left _ hsource) (List.mem_append_right _ (List.mem_singleton_self _))

/-- So do all targets of a file, whose number is looked up once. -/
theorem drawsEnds_targets (targets : List String) :
    ∀ {ends : List IncludeEnd} {links : List (IncludeEnd × IncludeEnd)} {chart : Flowchart} {source : IncludeEnd},
      DrawsEnds ends links chart → source ∈ ends →
        DrawsEnds (ends ++ targets.map includes.resolve)
          (links ++ targets.map fun target => (source, includes.resolve target))
          (targets.foldl (includes.addTarget (endNumber ends source)) chart) := by
  induction targets with
  | nil =>
    intro ends links chart source h _
    rw [List.map_nil, List.map_nil, List.append_nil, List.append_nil]
    exact h
  | cons target rest ih =>
    intro ends links chart source h hsource
    have hstep := ih (drawsEnds_addTarget includes h hsource target) (List.mem_append_left _ hsource)
    rw [Flowchart.endNumber_append hsource, List.append_assoc, List.append_assoc] at hstep
    exact hstep

theorem drawsEnds_addFile {ends : List IncludeEnd} {links : List (IncludeEnd × IncludeEnd)} {chart : Flowchart}
    (h : DrawsEnds ends links chart) (entry : String × List String) :
    DrawsEnds (ends ++ includes.entryEnds entry) (links ++ includes.entryLinks entry)
      (includes.addFile chart entry) := by
  obtain ⟨hnumber, hnode⟩ := h.node (.file entry.1)
  have htargets := drawsEnds_targets includes entry.2 hnode
    (List.mem_append_right _ (List.mem_singleton_self _))
  rw [← hnumber, List.append_assoc] at htargets
  exact htargets

/-- The ends that the chart meets, in order. -/
def metEnds : List IncludeEnd :=
  includes.entries.flatMap includes.entryEnds

/-- The links that the chart meets, in order. -/
def metLinks : List (IncludeEnd × IncludeEnd) :=
  includes.entries.flatMap includes.entryLinks

/-- **What the chart draws.** It has a node for each key among the ends that it meets, in that order, and an edge for
each pair of them that it meets as a link. -/
theorem drawsEnds_flowchart (direction : Direction) :
    DrawsEnds includes.metEnds includes.metLinks (includes.flowchart direction) := by
  rw [metEnds, metLinks, flowchart]
  generalize includes.entries = entries
  induction entries using List.reverseRecOn with
  | nil => exact Flowchart.drawsEnds_empty direction
  | append_singleton entries entry ih =>
    rw [List.flatMap_append, List.flatMap_append, List.flatMap_singleton, List.flatMap_singleton, List.foldl_append]
    exact drawsEnds_addFile includes ih entry

/-! ### The links that are meant -/

/-- A file has a target. -/
def Includes (file target : String) : Prop :=
  ∃ targets, includes[file]? = some targets ∧ target ∈ targets

/-- A file has a target that names an end. -/
def Links (file : String) (e : IncludeEnd) : Prop :=
  ∃ target, includes.Includes file target ∧ includes.Names target e

/-- A link starts or ends at an end. -/
def Reached (e : IncludeEnd) : Prop :=
  ∃ file linked, includes.Links file linked ∧ (e = .file file ∨ e = linked)

/-- A target outside and a file, both of which links reach, share a key. -/
def Clashes : Prop :=
  ∃ target, includes.Reached (.external target) ∧ includes.Reached (.file ("include:" ++ target))

/-- A chart draws the links that are meant: the ends that they reach have nodes of their own, and there are no others;
each link has an edge between the nodes of its ends, once, and there are no others. -/
structure Drawn (chart : Flowchart) (number : IncludeEnd → Nat) : Prop where
  apart : ∀ a b, includes.Reached a → includes.Reached b → number a = number b → a = b
  node : ∀ e, includes.Reached e → ∃ i, number e = i + 1 ∧ chart.nodes[i]? = some e.node
  reached : ∀ i < chart.nodes.length, ∃ e, includes.Reached e ∧ number e = i + 1
  edge_iff : ∀ edge, edge ∈ chart.edges ↔
    ∃ file e, includes.Links file e ∧ edge = ⟨number (.file file), number e, .call⟩
  once : chart.edges.Nodup
  unstyled : chart.styles = []

variable {includes}

theorem mem_entries {file : String} {targets : List String} :
    (file, targets) ∈ includes.entries ↔ includes[file]? = some targets ∧ targets ≠ [] := by
  rw [entries, List.mem_filter, Std.ExtTreeMap.mem_toList_iff_getElem?_eq_some, Bool.not_eq_true',
    List.isEmpty_eq_false_iff]

theorem mem_metLinks {link : IncludeEnd × IncludeEnd} :
    link ∈ includes.metLinks ↔
      ∃ file target, includes.Includes file target ∧ link = (.file file, includes.resolve target) := by
  rw [metLinks, List.mem_flatMap]
  constructor
  · intro h
    obtain ⟨⟨file, targets⟩, hentry, hlink⟩ := h
    obtain ⟨target, htarget, heq⟩ := List.mem_map.mp hlink
    exact ⟨file, target, ⟨targets, (mem_entries.mp hentry).1, htarget⟩, heq.symm⟩
  · intro h
    obtain ⟨file, target, ⟨targets, hfile, htarget⟩, heq⟩ := h
    refine ⟨(file, targets), mem_entries.mpr ⟨hfile, List.ne_nil_of_mem htarget⟩, ?_⟩
    exact List.mem_map.mpr ⟨target, htarget, heq.symm⟩

/-- The chart meets just the ends of the links that it meets. -/
theorem mem_metEnds {e : IncludeEnd} :
    e ∈ includes.metEnds ↔ ∃ file target, includes.Includes file target ∧
      (e = .file file ∨ e = includes.resolve target) := by
  rw [metEnds, List.mem_flatMap]
  constructor
  · intro h
    obtain ⟨⟨file, targets⟩, hentry, he⟩ := h
    obtain ⟨hfile, hne⟩ := mem_entries.mp hentry
    rcases List.mem_cons.mp he with he | he
    · -- a file is met only for its targets, so it has one
      obtain ⟨target, htarget⟩ := List.exists_mem_of_ne_nil _ hne
      exact ⟨file, target, ⟨targets, hfile, htarget⟩, .inl he⟩
    · obtain ⟨target, htarget, heq⟩ := List.mem_map.mp he
      exact ⟨file, target, ⟨targets, hfile, htarget⟩, .inr heq.symm⟩
  · intro h
    obtain ⟨file, target, ⟨targets, hfile, htarget⟩, he⟩ := h
    refine ⟨(file, targets), mem_entries.mpr ⟨hfile, List.ne_nil_of_mem htarget⟩, ?_⟩
    rcases he with he | he
    · rw [he]
      exact List.mem_cons_self
    · rw [he]
      exact List.mem_cons_of_mem _ (List.mem_map_of_mem htarget)

/-- Without overshadowed targets, a file links to what the chart takes for its targets. -/
theorem links_iff_of_not_overshadowed (h : ∀ file target, includes.Includes file target → ¬includes.Overshadowed target)
    {file : String} {e : IncludeEnd} :
    includes.Links file e ↔ ∃ target, includes.Includes file target ∧ e = includes.resolve target := by
  constructor
  · intro hlinks
    obtain ⟨target, htarget, hnames⟩ := hlinks
    exact ⟨target, htarget, hnames.unique (names_resolve_iff.mpr (h file target htarget))⟩
  · intro hmet
    obtain ⟨target, htarget, heq⟩ := hmet
    refine ⟨target, htarget, ?_⟩
    rw [heq]
    exact names_resolve_iff.mpr (h file target htarget)

theorem reached_iff_mem_metEnds (h : ∀ file target, includes.Includes file target → ¬includes.Overshadowed target)
    {e : IncludeEnd} : includes.Reached e ↔ e ∈ includes.metEnds := by
  rw [mem_metEnds]
  constructor
  · intro hreached
    obtain ⟨file, linked, hlinks, he⟩ := hreached
    obtain ⟨target, htarget, rfl⟩ := (links_iff_of_not_overshadowed h).mp hlinks
    exact ⟨file, target, htarget, he⟩
  · intro hmet
    obtain ⟨file, target, htarget, he⟩ := hmet
    exact ⟨file, includes.resolve target, (links_iff_of_not_overshadowed h).mpr ⟨target, htarget, rfl⟩, he⟩

/-- Without clashes, the key of an end that links reach tells it. -/
theorem eq_of_key_eq (h : ¬includes.Clashes) {a b : IncludeEnd} (ha : includes.Reached a) (hb : includes.Reached b)
    (hkey : a.key = b.key) : a = b := by
  rcases IncludeEnd.eq_or_of_key_eq hkey with heq | ⟨target, ⟨rfl, rfl⟩ | ⟨rfl, rfl⟩⟩
  · exact heq
  · exact absurd ⟨target, ha, hb⟩ h
  · exact absurd ⟨target, hb, ha⟩ h

/-- It is enough to look at the targets of the entries. -/
theorem forall_not_overshadowed_iff :
    (∀ file target, includes.Includes file target → ¬includes.Overshadowed target) ↔
      ∀ entry ∈ includes.entries, ∀ target ∈ entry.2, ¬includes.Overshadowed target := by
  constructor
  · intro h entry hentry target htarget
    exact h entry.1 target ⟨entry.2, (mem_entries.mp hentry).1, htarget⟩
  · intro h file target hincludes
    obtain ⟨targets, hfile, htarget⟩ := hincludes
    exact h (file, targets) (mem_entries.mpr ⟨hfile, List.ne_nil_of_mem htarget⟩) target htarget

/-- Nothing clashes if the ends that the chart meets have keys of their own. -/
theorem not_clashes_of_keys (hshadow : ∀ file target, includes.Includes file target → ¬includes.Overshadowed target)
    (hkeys : ∀ a ∈ includes.metEnds, ∀ b ∈ includes.metEnds, a.key = b.key → a = b) : ¬includes.Clashes := by
  intro hclash
  obtain ⟨target, houtside, hfile⟩ := hclash
  have hmet := fun {e} => reached_iff_mem_metEnds hshadow (e := e)
  cases hkeys _ (hmet.mp houtside) _ (hmet.mp hfile) rfl

section Chart

variable (direction : Direction)

theorem nodup_keys : ((includes.flowchart direction).nodes.map (·.key)).Nodup := by
  rw [(includes.drawsEnds_flowchart direction).keys]
  exact nodup_eraseDups _

/-- The end that an edge of the chart numbers has a node with its key. -/
theorem getElem?_keys {e : IncludeEnd} (he : e ∈ includes.metEnds) :
    ((includes.flowchart direction).nodes.map (·.key))[endNumber includes.metEnds e - 1]? = some e.key := by
  have hmem : e.key ∈ (includes.metEnds.map (·.key)).eraseDups := List.mem_eraseDups.mpr (List.mem_map_of_mem he)
  rw [(includes.drawsEnds_flowchart direction).keys, endNumber, Nat.add_sub_cancel]
  exact List.getElem?_idxOf hmem

/-- What is drawn as meant has no clash: two ends with one key would need two nodes with it. -/
theorem not_clashes_of_drawn {number : IncludeEnd → Nat} (h : includes.Drawn (includes.flowchart direction) number) :
    ¬includes.Clashes := by
  intro hclash
  obtain ⟨target, houtside, hfile⟩ := hclash
  obtain ⟨i, hi, houtsideNode⟩ := h.node _ houtside
  obtain ⟨j, hj, hfileNode⟩ := h.node _ hfile
  have hkeys : ((includes.flowchart direction).nodes.map (·.key))[i]?
      = ((includes.flowchart direction).nodes.map (·.key))[j]? := by
    rw [List.getElem?_map, List.getElem?_map, houtsideNode, hfileNode, Option.map_some, Option.map_some,
      IncludeEnd.key_node, IncludeEnd.key_node]
    rfl
  have hlt : i < ((includes.flowchart direction).nodes.map (·.key)).length := by
    rw [List.length_map]
    exact (List.getElem?_eq_some_iff.mp houtsideNode).1
  have hsame : i = j := (List.getElem?_inj hlt (nodup_keys direction)).mp hkeys
  have hends := h.apart _ _ houtside hfile (by rw [hi, hj, hsame])
  cases hends

/-- What is drawn as meant has no overshadowed target: the edge that is meant would lead to the file that no target
leads to. -/
theorem not_overshadowed_of_drawn {number : IncludeEnd → Nat}
    (h : includes.Drawn (includes.flowchart direction) number) {file target : String}
    (hincludes : includes.Includes file target) : ¬includes.Overshadowed target := by
  intro hshadow
  have hlinks : includes.Links file (.file target) := ⟨target, hincludes, .exact hshadow.1⟩
  have hreached : includes.Reached (.file target) := ⟨file, _, hlinks, .inr rfl⟩
  have hedge := (h.edge_iff _).mpr ⟨file, _, hlinks, rfl⟩
  rw [(includes.drawsEnds_flowchart direction).edges, List.mem_eraseDups] at hedge
  obtain ⟨link, hlink, heq⟩ := List.mem_map.mp hedge
  obtain ⟨source, other, hother, rfl⟩ := mem_metLinks.mp hlink
  -- the edge in the chart ends at the node of the target, so the end that it was drawn for has the target as its key
  have hkey : (includes.resolve other).key = target := by
    obtain ⟨i, hi, hnode⟩ := h.node _ hreached
    have hnumber : endNumber includes.metEnds (includes.resolve other) = i + 1 :=
      (congrArg FlowEdge.target heq).trans hi
    have hfound := getElem?_keys direction (mem_metEnds.mpr ⟨source, other, hother, .inr rfl⟩)
    rw [hnumber, Nat.add_sub_cancel, List.getElem?_map, hnode] at hfound
    exact (Option.some_inj.mp hfound).symm
  rw [resolve] at hkey
  cases hresolve : includes.resolve? other with
  | some key =>
    rw [hresolve] at hkey
    rw [show key = target from hkey] at hresolve
    exact resolve?_ne_of_overshadowed hshadow other hresolve
  | none =>
    rw [hresolve] at hkey
    obtain ⟨hnot, hnone⟩ := resolve?_eq_none_iff.mp hresolve
    have houtside : includes.Reached (.external other) :=
      ⟨source, _, ⟨other, hother, .outside hnot hnone⟩, .inr rfl⟩
    refine not_clashes_of_drawn direction h ⟨other, houtside, ?_⟩
    rw [show "include:" ++ other = target from hkey]
    exact hreached

/-- Without overshadowed targets and clashes, the numbers of the chart draw the links as meant. -/
theorem drawn_of_apart (hshadow : ∀ file target, includes.Includes file target → ¬includes.Overshadowed target)
    (hclash : ¬includes.Clashes) : includes.Drawn (includes.flowchart direction) (endNumber includes.metEnds) := by
  have hdraws := includes.drawsEnds_flowchart direction
  have hmet := fun {e} => reached_iff_mem_metEnds hshadow (e := e)
  have hkeyOf : ∀ e, includes.Reached e → e.key ∈ (includes.metEnds.map (·.key)).eraseDups := fun e he =>
    List.mem_eraseDups.mpr (List.mem_map_of_mem (hmet.mp he))
  refine {
    apart := ?_
    node := ?_
    reached := ?_
    edge_iff := ?_
    once := by rw [hdraws.edges]; exact nodup_eraseDups _
    unstyled := hdraws.styles }
  · intro a b ha hb hnumber
    refine eq_of_key_eq hclash ha hb ?_
    exact (List.idxOf_inj (hkeyOf a ha)).mp (Nat.add_right_cancel hnumber)
  · intro e he
    refine ⟨(includes.metEnds.map (·.key)).eraseDups.idxOf e.key, rfl, ?_⟩
    have hkey := getElem?_keys direction (hmet.mp he)
    rw [endNumber, Nat.add_sub_cancel, List.getElem?_map] at hkey
    obtain ⟨node, hnode, hnodeKey⟩ := Option.map_eq_some_iff.mp hkey
    obtain ⟨e', he', rfl⟩ := hdraws.nodes node (List.mem_of_getElem? hnode)
    rw [hnode, eq_of_key_eq hclash (hmet.mpr he') he hnodeKey]
  · intro i hi
    obtain ⟨e, he, hnode⟩ := hdraws.nodes _ (List.getElem_mem hi)
    refine ⟨e, hmet.mpr he, congrArg (· + 1) ?_⟩
    have hlt : i < ((includes.flowchart direction).nodes.map (·.key)).length := by rwa [List.length_map]
    have hkey : e.key = ((includes.flowchart direction).nodes.map (·.key))[i] := by
      rw [List.getElem_map, ← hnode]
      rfl
    rw [← hdraws.keys, hkey]
    exact (nodup_keys direction).idxOf_getElem i hlt
  · intro edge
    rw [hdraws.edges, List.mem_eraseDups, List.mem_map]
    constructor
    · intro h
      obtain ⟨link, hlink, heq⟩ := h
      obtain ⟨file, target, htarget, rfl⟩ := mem_metLinks.mp hlink
      exact ⟨file, _, (links_iff_of_not_overshadowed hshadow).mpr ⟨target, htarget, rfl⟩, heq.symm⟩
    · intro h
      obtain ⟨file, e, hlinks, heq⟩ := h
      obtain ⟨target, htarget, rfl⟩ := (links_iff_of_not_overshadowed hshadow).mp hlinks
      exact ⟨_, mem_metLinks.mpr ⟨file, target, htarget, rfl⟩, heq.symm⟩

/-- The chart draws the links that are meant just if no target is overshadowed and nothing clashes. -/
theorem exists_drawn_iff :
    (∃ number, includes.Drawn (includes.flowchart direction) number) ↔
      (∀ file target, includes.Includes file target → ¬includes.Overshadowed target) ∧ ¬includes.Clashes := by
  constructor
  · intro h
    obtain ⟨number, hdrawn⟩ := h
    exact ⟨fun _ _ => not_overshadowed_of_drawn direction hdrawn, not_clashes_of_drawn direction hdrawn⟩
  · intro h
    exact ⟨_, drawn_of_apart direction h.1 h.2⟩

/-- **Includes lead to the files that they name, but for two kinds of maps.** If some file has a target, the diagram
shows a chart, and the chart draws just the links that are meant, unless a target is the key of a file that another file
overshadows, or a file has the key of a target outside. -/
theorem includes_drawn_iff {file target : String} (h : includes.Includes file target) :
    includes.diagram direction = (includes.flowchart direction).toDiagram .includes none ∧
      ((∃ number, includes.Drawn (includes.flowchart direction) number) ↔
        (∀ file target, includes.Includes file target → ¬includes.Overshadowed target) ∧ ¬includes.Clashes) := by
  refine ⟨?_, exists_drawn_iff direction⟩
  obtain ⟨targets, hfile, htarget⟩ := h
  have hentry : (file, targets) ∈ includes.entries := mem_entries.mpr ⟨hfile, List.ne_nil_of_mem htarget⟩
  rw [diagram, if_neg]
  rw [List.isEmpty_iff]
  exact List.ne_nil_of_mem hentry

end Chart

/-- Two directories have a header of one name, which a third file includes twice; all include one header outside. -/
def twoHeaders : IncludeMap :=
  .ofList [("a/x.h", ["stdio.h"]), ("b/x.h", ["stdio.h", "a/x.h"]), ("main.c", ["x.h", "stdio.h", "x.h"])]

/-- The header is that of the first directory, and the header outside has one node. -/
theorem twoHeaders_drawn :
    twoHeaders.Includes "main.c" "x.h" ∧
      (∃ number, twoHeaders.Drawn (twoHeaders.flowchart .topDown) number) ∧
      (twoHeaders.flowchart .topDown).nodes.map (·.key) = ["a/x.h", "include:stdio.h", "b/x.h", "main.c"] ∧
      (twoHeaders.flowchart .topDown).edges =
        [⟨1, 2, .call⟩, ⟨3, 2, .call⟩, ⟨3, 1, .call⟩, ⟨4, 1, .call⟩, ⟨4, 2, .call⟩] := by
  have hincludes : twoHeaders.Includes "main.c" "x.h" :=
    ⟨["x.h", "stdio.h", "x.h"], by decide +kernel, by decide⟩
  have hshadow := forall_not_overshadowed_iff.mpr (show ∀ entry ∈ twoHeaders.entries, ∀ target ∈ entry.2,
    ¬twoHeaders.Overshadowed target by decide +kernel)
  have hclash := not_clashes_of_keys hshadow (by decide +kernel)
  exact ⟨hincludes, (includes_drawn_iff .topDown hincludes).2.mpr ⟨hshadow, hclash⟩, by decide +kernel,
    by decide +kernel⟩

/-- A file includes the header next to it, and a directory has a header of that name. -/
def shadowedHeader : IncludeMap :=
  .ofList [("a/x.h", []), ("main.c", ["x.h"]), ("x.h", [])]

/-- A file is named like the node of the target that it includes. -/
def clashingFile : IncludeMap :=
  .ofList [("include:y.c", ["y.c"])]

/-- The edge to the header leads to the one in the directory, and the file leads to itself. -/
theorem includes_led_astray :
    shadowedHeader.Names "x.h" (.file "x.h") ∧
      (shadowedHeader.flowchart .topDown).nodes.map (·.key) = ["main.c", "a/x.h"] ∧
      ¬(∃ number, shadowedHeader.Drawn (shadowedHeader.flowchart .topDown) number) ∧
      clashingFile.Names "y.c" (.external "y.c") ∧
      (clashingFile.flowchart .topDown).edges = [⟨1, 1, .call⟩] ∧
      ¬∃ number, clashingFile.Drawn (clashingFile.flowchart .topDown) number := by
  have hheader : shadowedHeader.Includes "main.c" "x.h" := ⟨["x.h"], by decide +kernel, by decide⟩
  have hfile : clashingFile.Includes "include:y.c" "y.c" := ⟨["y.c"], by decide +kernel, by decide⟩
  have houtside : clashingFile.Names "y.c" (.external "y.c") := by
    have hresolve := resolve?_eq_none_iff.mp (show clashingFile.resolve? "y.c" = none by decide +kernel)
    exact .outside hresolve.1 hresolve.2
  have hlinks : clashingFile.Links "include:y.c" (.external "y.c") := ⟨"y.c", hfile, houtside⟩
  refine ⟨.exact (by decide +kernel), by decide +kernel, ?_, houtside, by decide +kernel, ?_⟩
  · rw [exists_drawn_iff]
    intro h
    exact h.1 _ _ hheader (by decide +kernel)
  · rw [exists_drawn_iff]
    intro h
    exact h.2 ⟨"y.c", ⟨_, _, hlinks, .inr rfl⟩, ⟨_, _, hlinks, .inl rfl⟩⟩

end IncludeMap

end CodeAtlas
