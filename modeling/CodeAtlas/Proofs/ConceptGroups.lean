import CodeAtlas.Proofs.CallTreeNodes
import CodeAtlas.Proofs.ClassMembers
import CodeAtlas.Proofs.SmallForms
import CodeAtlas.Proofs.TextPieces
import CodeAtlas.Query.Concept

/-!
# The groups of a concept

A concept gathers symbols in three ways at once: in groups, one for each keyword; in one list of members without
repetition; and as the roots of small call trees. The lookup of names is a query of its own. This file says how
they fit together.

* `CallGraph.Gathers`: what a group tells about its keyword; `CallGraph.gathers_groupOf`: every group tells it;
* `CallGraph.map_root_gatheredPositions`: the roots of the trees are the members;
* `CallGraph.concept_agrees`: groups, trees, lookups and the status of a concept agree.
-/

namespace CodeAtlas

namespace CallGraph

variable (g : CallGraph)

/-! ### What a keyword gathers -/

/-- What a group tells about a keyword. -/
structure Gathers (keyword : String) (group : KeywordGroup) : Prop where
  /-- It carries the keyword without the blanks around it. -/
  trimmed : group.keyword.toList = Text.trim keyword.toList
  /-- Its members are the symbols whose name or body contains the keyword, in the order of the table. -/
  members : group.hits.map ConceptMatch.symbol
    = (g.table.symbols.filter fun s =>
        Text.lowercase group.keyword.toList <:+: Text.lowercase s.name.toList ∨
          Text.lowercase group.keyword.toList <:+: Text.lowercase s.body.toList).map Symbol.id
  /-- The members that are marked for their name are those that a lookup of the keyword finds. -/
  named : (group.hits.filter ConceptMatch.matchedName).map ConceptMatch.symbol
    = (g.locate group.keyword none).hits.map Symbol.id
  /-- The lookup finds the same with the blanks around the keyword. -/
  lookup : (g.locate keyword none).hits = (g.locate group.keyword none).hits

/-- The match of a symbol that contains a needle. -/
def matchOf (needle : Text) (s : Symbol) : ConceptMatch :=
  ⟨s.id, s.kind, holdsNeedle needle s.name.toList, holdsNeedle needle s.body.toList, g.snippet s⟩

theorem filterMap_conceptMatch? (needle : Text) (symbols : List Symbol) :
    symbols.filterMap (g.conceptMatch? needle)
      = (symbols.filter fun s =>
          holdsNeedle needle s.name.toList || holdsNeedle needle s.body.toList).map (g.matchOf needle) := by
  induction symbols with
  | nil => rfl
  | cons s rest ih =>
    by_cases h : (holdsNeedle needle s.name.toList || holdsNeedle needle s.body.toList) = true
    · have hmatch : g.conceptMatch? needle s = some (g.matchOf needle s) := if_pos h
      rw [List.filterMap_cons_some hmatch, List.filter_cons_of_pos (by exact h), List.map_cons, ih]
    · have hmatch : g.conceptMatch? needle s = none := if_neg h
      rw [List.filterMap_cons_none hmatch, List.filter_cons_of_neg (by exact h), ih]

theorem map_snd_conceptMatches (keyword : String) :
    (g.conceptMatches keyword).map Prod.snd
      = g.table.symbols.filterMap (g.conceptMatch? (Text.lowercase keyword.toList)) := by
  have hsnd : ∀ p ∈ g.table.symbols.zipIdx,
      ((g.conceptMatch? (Text.lowercase keyword.toList) p.1).map (p.2, ·)).map Prod.snd
        = (g.conceptMatch? (Text.lowercase keyword.toList) ∘ Prod.fst) p := by
    intro p _
    rw [Option.map_map]
    exact Option.map_id'
  rw [conceptMatches, List.map_filterMap, List.filterMap_congr hsnd, ← List.filterMap_map, List.zipIdx_map_fst]

/-- A position comes with the match of the symbol that stands there. -/
theorem symbol_of_mem_conceptMatches {keyword : String} {hit : Nat × ConceptMatch}
    (h : hit ∈ g.conceptMatches keyword) :
    ∃ s, g.table.symbols[hit.1]? = some s ∧ hit.2.symbol = s.id := by
  obtain ⟨⟨s, i⟩, hp, hhit⟩ := List.mem_filterMap.mp h
  obtain ⟨m, hm, rfl⟩ := Option.map_eq_some_iff.mp hhit
  refine ⟨s, List.mem_zipIdx_iff_getElem?.mp hp, ?_⟩
  rw [conceptMatch?] at hm
  split at hm
  · cases hm
    rfl
  · cases hm

/-- The group of a keyword. -/
def groupOf (keyword : String) : KeywordGroup :=
  ⟨keyword, (g.conceptMatches keyword).map Prod.snd⟩

/-- **Every group tells what its keyword gathers.** -/
theorem gathers_groupOf {keyword : String} (hkeyword : Text.trim keyword.toList ≠ []) :
    g.Gathers keyword (g.groupOf (Text.onString Text.trim keyword)) := by
  have htrimmed : (Text.onString Text.trim keyword).toList = Text.trim keyword.toList := String.toList_ofList
  have hneedle : needle (Text.onString Text.trim keyword) = needle keyword := by
    rw [needle, htrimmed, Text.trim_trim, needle]
  have hhits : (g.groupOf (Text.onString Text.trim keyword)).hits
      = (g.table.symbols.filter fun s =>
          holdsNeedle (needle keyword) s.name.toList || holdsNeedle (needle keyword) s.body.toList).map
            (g.matchOf (needle keyword)) := by
    show (g.conceptMatches (Text.onString Text.trim keyword)).map Prod.snd = _
    rw [map_snd_conceptMatches, filterMap_conceptMatch?, htrimmed]
    rfl
  have hlocate : ∀ k, needle k = needle keyword →
      (g.locate k none).hits
        = g.table.symbols.filter fun s => holdsNeedle (needle keyword) s.name.toList := by
    intro k hk
    have hne : (needle keyword).isEmpty = false := by
      rw [List.isEmpty_eq_false_iff]
      exact Text.lowercase_ne_nil hkeyword
    show (if (needle k).isEmpty then [] else g.table.symbols.filter fun s =>
      (true || none == some s.kind) && holdsNeedle (needle k) s.name.toList) = _
    rw [hk, hne]
    rfl
  have hsymbol : ConceptMatch.symbol ∘ g.matchOf (needle keyword) = Symbol.id := rfl
  refine ⟨htrimmed, ?_, ?_, ?_⟩
  · show (g.groupOf (Text.onString Text.trim keyword)).hits.map ConceptMatch.symbol
      = (g.table.symbols.filter fun s =>
          Text.lowercase (Text.onString Text.trim keyword).toList <:+: Text.lowercase s.name.toList ∨
            Text.lowercase (Text.onString Text.trim keyword).toList <:+: Text.lowercase s.body.toList).map
              Symbol.id
    have hmembers : ∀ s ∈ g.table.symbols,
        (holdsNeedle (needle keyword) s.name.toList || holdsNeedle (needle keyword) s.body.toList)
          = decide (Text.lowercase (Text.trim keyword.toList) <:+: Text.lowercase s.name.toList ∨
              Text.lowercase (Text.trim keyword.toList) <:+: Text.lowercase s.body.toList) := by
      intro s _
      rw [Bool.eq_iff_iff, Bool.or_eq_true, holdsNeedle, holdsNeedle, Text.occursIn_iff, Text.occursIn_iff,
        decide_eq_true_iff, needle]
    rw [hhits, List.map_map, htrimmed, List.filter_congr hmembers, hsymbol]
  · show ((g.groupOf (Text.onString Text.trim keyword)).hits.filter ConceptMatch.matchedName).map
        ConceptMatch.symbol = (g.locate (Text.onString Text.trim keyword) none).hits.map Symbol.id
    have hnamed : ∀ s ∈ g.table.symbols,
        ((ConceptMatch.matchedName ∘ g.matchOf (needle keyword)) s &&
          (holdsNeedle (needle keyword) s.name.toList || holdsNeedle (needle keyword) s.body.toList))
            = holdsNeedle (needle keyword) s.name.toList := by
      intro s _
      show (holdsNeedle (needle keyword) s.name.toList &&
        (holdsNeedle (needle keyword) s.name.toList || holdsNeedle (needle keyword) s.body.toList)) = _
      cases holdsNeedle (needle keyword) s.name.toList
      · rfl
      · rfl
    rw [hhits, hlocate _ hneedle, List.filter_map, List.map_map, List.filter_filter, List.filter_congr hnamed,
      hsymbol]
  · rw [hlocate keyword rfl]
    exact (hlocate _ hneedle).symm

/-! ### The members of all groups -/

/-- The keywords of a concept that are not blank. -/
def keptKeywords (keywords : List String) : List String :=
  keywords.filter fun k => Text.trim k.toList ≠ []

theorem filter_isEmpty_trim (keywords : List String) :
    (keywords.map (Text.onString Text.trim)).filter (fun k => !k.isEmpty)
      = (keptKeywords keywords).map (Text.onString Text.trim) := by
  rw [List.filter_map, keptKeywords]
  congr 1
  refine List.filter_congr ?_
  intro k _
  rw [Bool.eq_iff_iff]
  simp [Text.onString]

/-- The positions of the members of all groups, as often as they occur. -/
def gatheredPositions (keywords : List String) : List Nat :=
  ((keptKeywords keywords).map (Text.onString Text.trim)).flatMap fun k => (g.conceptMatches k).map Prod.fst

theorem groups_concept (label : String) (keywords : List String) :
    (g.concept label keywords).groups
      = (keptKeywords keywords).map fun k => g.groupOf (Text.onString Text.trim k) := by
  show (((keywords.map (Text.onString Text.trim)).filter fun k => !k.isEmpty).map
    fun k => (k, g.conceptMatches k)).map (fun p => KeywordGroup.mk p.1 (p.2.map Prod.snd)) = _
  rw [filter_isEmpty_trim, List.map_map, List.map_map]
  rfl

theorem trees_concept (label : String) (keywords : List String) :
    (g.concept label keywords).trees
      = (g.gatheredPositions keywords).eraseDups.map (g.treeAt g.limits.conceptTreeDepth) := by
  show ((((keywords.map (Text.onString Text.trim)).filter fun k => !k.isEmpty).map
    fun k => (k, g.conceptMatches k)).flatMap fun p => p.2.map Prod.fst).eraseDups.map _ = _
  rw [filter_isEmpty_trim, List.flatMap_map]
  rfl

theorem totalSymbols_concept (label : String) (keywords : List String) :
    (g.concept label keywords).totalSymbols = (g.concept label keywords).trees.length :=
  (List.length_map _).symm

theorem status_concept (label : String) (keywords : List String) :
    (g.concept label keywords).status = .found ↔ g.gatheredPositions keywords ≠ [] := by
  have hempty : (g.gatheredPositions keywords).eraseDups.isEmpty = true ↔ g.gatheredPositions keywords = [] := by
    rw [List.isEmpty_iff, List.eq_nil_iff_forall_not_mem, List.eq_nil_iff_forall_not_mem]
    simp only [List.mem_eraseDups]
  have hstatus : (g.concept label keywords).status
      = if (g.gatheredPositions keywords).eraseDups.isEmpty then
          .noMatches (", ".intercalate ((keptKeywords keywords).map (Text.onString Text.trim)))
        else .found := by
    rw [gatheredPositions, ← filter_isEmpty_trim]
    show (if ((((keywords.map (Text.onString Text.trim)).filter fun k => !k.isEmpty).map
      fun k => (k, g.conceptMatches k)).flatMap fun p => p.2.map Prod.fst).eraseDups.isEmpty then _ else _) = _
    rw [List.flatMap_map]
  rw [hstatus]
  by_cases h : g.gatheredPositions keywords = []
  · rw [if_pos (hempty.mpr h)]
    simp [h]
  · rw [if_neg (mt hempty.mp h)]
    simp [h]

theorem getElem?_of_mem_gatheredPositions {keywords : List String} {i : Nat}
    (h : i ∈ g.gatheredPositions keywords) : ∃ s, g.table.symbols[i]? = some s := by
  obtain ⟨k, -, hi⟩ := List.mem_flatMap.mp h
  obtain ⟨hit, hhit, rfl⟩ := List.mem_map.mp hi
  obtain ⟨s, hs, -⟩ := g.symbol_of_mem_conceptMatches hhit
  exact ⟨s, hs⟩

/-- The members of all groups are the symbols at the gathered positions. -/
theorem map_root_gatheredPositions (keywords : List String) (label : String) (depth : Nat) :
    (g.gatheredPositions keywords).map (fun i => (g.treeAt depth i).root.symbol)
      = (g.concept label keywords).groups.flatMap fun group => group.hits.map ConceptMatch.symbol := by
  rw [groups_concept, gatheredPositions, List.map_flatMap, List.flatMap_map, List.flatMap_map]
  refine List.flatMap_congr ?_
  intro k _
  show ((g.conceptMatches (Text.onString Text.trim k)).map Prod.fst).map _
    = ((g.conceptMatches (Text.onString Text.trim k)).map Prod.snd).map ConceptMatch.symbol
  rw [List.map_map, List.map_map]
  refine List.map_congr_left ?_
  intro hit hhit
  obtain ⟨s, hs, hsymbol⟩ := g.symbol_of_mem_conceptMatches hhit
  show (g.grow depth [] none hit.1 g.limits.maxTreeNodes).1.symbol = hit.2.symbol
  rw [(grow_symbol hs depth [] none g.limits.maxTreeNodes).1, hsymbol]

end CallGraph

/-- In a table of fragments no two positions have a symbol of one identity. -/
theorem SymbolTable.eq_of_ids_at {fragments : List Fragment} {i j : Nat} {s t : Symbol}
    (hs : (SymbolTable.ofFragments fragments).symbols[i]? = some s)
    (ht : (SymbolTable.ofFragments fragments).symbols[j]? = some t) (hid : s.id = t.id) : i = j := by
  have hi := positionOf?_ofFragments hs
  have hj := positionOf?_ofFragments ht
  rw [hid] at hi
  exact Option.some.inj (hi.symm.trans hj)

theorem Limits.conceptTreeDepth_le (limits : Limits) : limits.conceptTreeDepth ≤ 2 := by
  rw [conceptTreeDepth, clamp]
  omega

namespace CallGraph

/-- **Groups, trees and lookups of a concept agree.** In a table of any fragments a concept has one group for each
keyword that is not blank, in order. A group lists, in the order of the table, exactly the symbols whose name or
body contains the keyword, letter case apart, and the members that are marked for their name are what a lookup of
the keyword finds. The roots of the trees are the members of all groups, each at its first appearance; their number
is given, and no tree is higher than two. Something is found exactly if some group has a member. -/
theorem concept_agrees (fragments : List Fragment) (limits : Limits) (label : String) (keywords : List String) :
    List.Forall₂ (ofTable (.ofFragments fragments) limits).Gathers
      (keywords.filter fun k => Text.trim k.toList ≠ [])
      ((ofTable (.ofFragments fragments) limits).concept label keywords).groups ∧
    ((ofTable (.ofFragments fragments) limits).concept label keywords).trees.map (·.root.symbol)
      = (((ofTable (.ofFragments fragments) limits).concept label keywords).groups.flatMap fun group =>
          group.hits.map ConceptMatch.symbol).eraseDups ∧
    ((ofTable (.ofFragments fragments) limits).concept label keywords).totalSymbols
      = ((ofTable (.ofFragments fragments) limits).concept label keywords).trees.length ∧
    (∀ tree ∈ ((ofTable (.ofFragments fragments) limits).concept label keywords).trees, tree.root.height ≤ 2) ∧
    (((ofTable (.ofFragments fragments) limits).concept label keywords).status = .found
      ↔ ∃ group ∈ ((ofTable (.ofFragments fragments) limits).concept label keywords).groups, group.hits ≠ []) := by
  refine ⟨?_, ?_, totalSymbols_concept _ label keywords, ?_, ?_⟩
  · rw [groups_concept, List.forall₂_map_right_iff, keptKeywords, List.forall₂_same]
    intro k hk
    exact gathers_groupOf _ (by simpa using (List.mem_filter.mp hk).2)
  · rw [trees_concept, List.map_map, ← map_root_gatheredPositions]
    refine (eraseDups_map ?_).symm
    intro i hi j hj hij
    obtain ⟨s, hs⟩ := getElem?_of_mem_gatheredPositions _ hi
    obtain ⟨t, ht⟩ := getElem?_of_mem_gatheredPositions _ hj
    refine SymbolTable.eq_of_ids_at hs ht ?_
    rw [← (grow_symbol hs _ [] none _).1, ← (grow_symbol ht _ [] none _).1]
    exact hij
  · intro tree htree
    rw [trees_concept] at htree
    obtain ⟨i, hi, rfl⟩ := List.mem_map.mp htree
    obtain ⟨s, hs⟩ := getElem?_of_mem_gatheredPositions _ (List.mem_eraseDups.mp hi)
    exact (grow_height_le _ hs [] none _).trans (Limits.conceptTreeDepth_le _)
  · rw [status_concept, Ne, ← List.map_eq_nil_iff, map_root_gatheredPositions _ keywords label 0,
      List.flatMap_eq_nil_iff]
    simp

end CallGraph

end CodeAtlas
