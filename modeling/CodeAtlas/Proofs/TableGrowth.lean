import CodeAtlas.Proofs.CallPaths
import CodeAtlas.Proofs.MergedSources

/-!
# More sources

A name counts as called if the table knows it, so a new source can bring edges to symbols that were there before, and
with the edges new paths. This file compares the table of some sources with the table of these and more: nothing that
the smaller one shows is missing from the larger one.

* `addKnown`, `filter_foldl_addKnown`: the edges to some of the known names are those that would be drawn if no other
  names were known;
* `SymbolTable.GrowsTo`: a table holds the symbols of another one, with the same code; from this follow edges, calls
  between names and paths;
* `CallGraph.CapsIdle`: the caps of a search cut nothing off its answer;
* `more_sources_lose_nothing`: the symbols, the edges and the paths of a larger table.
-/

namespace CodeAtlas

/-! ### Edges to the known names -/

/-- Adds a mention to the edges of a symbol if it is of another name and a known one. -/
def addKnown (s : Symbol) (known : String → Bool) (edges : List CallEdge) (m : Mention) : List CallEdge :=
  if String.ofList m.word == s.name || !known (String.ofList m.word) then edges
  else addMention s.id (String.ofList m.word) m.line edges

theorem SymbolTable.callEdges_eq_foldl (table : SymbolTable) (s : Symbol) :
    table.callEdges s = (mentions s.startLine (table.codeOf s)).foldl (addKnown s table.containsName) [] :=
  rfl

section Edges

variable {known known' : String → Bool} {s : Symbol}

/-- A mention goes to the edge of its name, and no other edge is touched. -/
theorem filter_addMention (known : String → Bool) (caller : SymbolId) (name : String) (line : Nat)
    (edges : List CallEdge) :
    (addMention caller name line edges).filter (fun e => known e.callee)
      = if known name = true then addMention caller name line (edges.filter fun e => known e.callee)
        else edges.filter fun e => known e.callee := by
  induction edges with
  | nil => by_cases hname : known name = true <;> simp [addMention, hname]
  | cons edge rest ih =>
    by_cases hedge : edge.callee = name
    · -- the edge of the name may take a line, but keeps its callee
      subst hedge
      by_cases hname : known edge.callee = true
      · simp only [addMention, beq_self_eq_true, if_true, List.filter_cons, hname]
        split <;> simp
      · simp only [addMention, beq_self_eq_true, if_true, List.filter_cons, hname]
        split <;> simp
    · by_cases hknown : known edge.callee = true
      · simp only [addMention, beq_iff_eq, hedge, if_false, List.filter_cons, hknown, if_true, ih]
        split <;> rfl
      · simp only [addMention, beq_iff_eq, hedge, if_false, List.filter_cons, hknown, ih, Bool.false_eq_true]

theorem filter_addKnown (hsub : ∀ name, known name = true → known' name = true) (edges : List CallEdge)
    (m : Mention) :
    (addKnown s known' edges m).filter (fun e => known e.callee)
      = addKnown s known (edges.filter fun e => known e.callee) m := by
  unfold addKnown
  by_cases hself : String.ofList m.word = s.name
  · rw [if_pos (by simp [hself]), if_pos (by simp [hself])]
  · by_cases hknown : known (String.ofList m.word) = true
    · rw [if_neg (by simp [hself, hsub _ hknown]), if_neg (by simp [hself, hknown]), filter_addMention,
        if_pos hknown]
    · -- the larger set of names may know the word, but then its edge is filtered out
      rw [apply_ite (List.filter fun e : CallEdge => known e.callee), filter_addMention, if_neg hknown, ite_self,
        if_pos (by simp [hknown])]

/-- **Fewer known names**: of the edges that are drawn while some names are known, those to fewer names are the edges
that are drawn while only these are known. -/
theorem filter_foldl_addKnown (hsub : ∀ name, known name = true → known' name = true) (found : List Mention) :
    ∀ edges : List CallEdge,
      (found.foldl (addKnown s known') edges).filter (fun e => known e.callee)
        = found.foldl (addKnown s known) (edges.filter fun e => known e.callee) := by
  induction found with
  | nil => intro edges; rfl
  | cons m found ih =>
    intro edges
    rw [List.foldl_cons, List.foldl_cons, ih, filter_addKnown hsub]

end Edges

/-! ### A table and a larger one -/

/-- A table holds all symbols of another one, and shows the same code for them. -/
structure SymbolTable.GrowsTo (t t' : SymbolTable) : Prop where
  symbols : ∀ s ∈ t.symbols, s ∈ t'.symbols
  code : ∀ s ∈ t.symbols, t.codeOf s = t'.codeOf s

namespace SymbolTable.GrowsTo

variable {t t' : SymbolTable}

theorem containsName (h : t.GrowsTo t') (name : String) (hname : t.containsName name = true) :
    t'.containsName name = true := by
  obtain ⟨s, hs, rfl⟩ := (t.containsName_iff name).mp hname
  exact (t'.containsName_iff s.name).mpr ⟨s, h.symbols s hs, rfl⟩

/-- The edges of a symbol are those of its edges in the larger table that lead to names of the smaller one. -/
theorem callEdges_eq (h : t.GrowsTo t') {s : Symbol} (hs : s ∈ t.symbols) :
    t.callEdges s = (t'.callEdges s).filter fun e => t.containsName e.callee := by
  rw [t.callEdges_eq_foldl, t'.callEdges_eq_foldl, filter_foldl_addKnown h.containsName, h.code s hs]
  rfl

theorem callEdges_sublist (h : t.GrowsTo t') {s : Symbol} (hs : s ∈ t.symbols) :
    (t.callEdges s).Sublist (t'.callEdges s) := by
  rw [h.callEdges_eq hs]
  exact List.filter_sublist

end SymbolTable.GrowsTo

namespace CallGraph

variable {g g' : CallGraph} {source target : String} {hops : Nat} {p : NamePath}

theorem edgesAt_of_getElem? {i : Nat} {s : Symbol} (hs : g.table.symbols[i]? = some s) :
    g.edgesAt i = g.table.callEdges s := by
  rw [g.edgesAt_eq, hs]
  rfl

theorem hasCall_iff (g : CallGraph) (a b : String) :
    g.HasCall a b
      ↔ ∃ s ∈ g.table.symbols, s.name = a ∧ ∃ edge ∈ g.table.callEdges s, edge.callee = b := by
  constructor
  · intro h
    obtain ⟨i, s, hs, hname, hedge⟩ := h
    rw [edgesAt_of_getElem? hs] at hedge
    exact ⟨s, List.mem_of_getElem? hs, hname, hedge⟩
  · intro h
    obtain ⟨s, hs, hname, hedge⟩ := h
    obtain ⟨i, hi⟩ := List.getElem?_of_mem hs
    rw [← edgesAt_of_getElem? hi] at hedge
    exact ⟨i, s, hi, hname, hedge⟩

/-- Calls between names stay. -/
theorem HasCall.grow (h : g.table.GrowsTo g'.table) {a b : String} (hcall : g.HasCall a b) : g'.HasCall a b := by
  rw [hasCall_iff] at hcall ⊢
  obtain ⟨s, hs, hname, edge, hedge, hcallee⟩ := hcall
  exact ⟨s, h.symbols s hs, hname, edge, (h.callEdges_sublist hs).subset hedge, hcallee⟩

/-- So do the simple paths. -/
theorem IsPathBetween.grow (h : g.table.GrowsTo g'.table) (hp : g.IsPathBetween source target hops p) :
    g'.IsPathBetween source target hops p := by
  obtain ⟨⟨hstart, hlinked, hsimple⟩, hlast, hlength⟩ := hp
  exact ⟨⟨hstart, hlinked.imp fun _ _ hcall => hcall.grow h, hsimple⟩, hlast, hlength⟩

/-! ### Caps that cut nothing off -/

/-- The graph with other caps on the paths of a search. -/
def withCaps (g : CallGraph) (maxPaths maxExpansions : Nat) : CallGraph :=
  { g with limits := { g.limits with maxPaths := maxPaths, maxExpansions := maxExpansions } }

/-- The caps of a search do not bind: its answer would hold the same paths if they were greater. -/
def CapsIdle (g : CallGraph) (source target : String) (hops : Nat) : Prop :=
  ∀ maxPaths maxExpansions, g.limits.maxPaths ≤ maxPaths → g.limits.maxExpansions ≤ maxExpansions →
    ((g.withCaps maxPaths maxExpansions).pathSearch source target hops).namePaths
      = (g.pathSearch source target hops).namePaths

/-- With room for all candidates and all paths, a search finds all paths. -/
theorem namePaths_withCaps {maxPaths maxExpansions : Nat} (hs : g.table.containsName source = true)
    (ht : g.table.containsName target = true) (hne : source ≠ target)
    (hexpansions : (candidates g.adjacency source target (g.limits.clampHops hops)).length ≤ maxExpansions)
    (hpaths : ((candidates g.adjacency source target (g.limits.clampHops hops)).filter (arrives target)).length
      ≤ maxPaths) :
    ((g.withCaps maxPaths maxExpansions).pathSearch source target hops).namePaths
      = (candidates g.adjacency source target (g.limits.clampHops hops)).filter (arrives target) := by
  have hsearch : ((g.withCaps maxPaths maxExpansions).pathSearch source target hops).namePaths
      = (simplePaths (g.withCaps maxPaths maxExpansions).limits (g.withCaps maxPaths maxExpansions).adjacency
          source target (g.limits.clampHops hops)).paths :=
    namePaths_pathSearch hs ht
  obtain ⟨hinitial, hlength⟩ :=
    simplePaths_initial (g.withCaps maxPaths maxExpansions) (g.limits.clampHops hops) hne
  rw [hsearch]
  apply hinitial.eq_of_length
  rw [hlength hexpansions]
  exact Nat.min_eq_left (Nat.le_trans hpaths (Nat.le_max_left _ _))

/-- What a search finds is a path between known names. -/
theorem isPathBetween_of_mem_namePaths (h : p ∈ (g.pathSearch source target hops).namePaths) :
    g.table.containsName source = true ∧ g.table.containsName target = true ∧
      g.IsPathBetween source target (g.limits.clampHops hops) p := by
  have hknown : g.table.containsName source = true ∧ g.table.containsName target = true := by
    by_contra hunknown
    cases hfind : [source, target].find? (fun name => !g.table.containsName name) with
    | none => simp [hunknown] at hfind
    | some name =>
      rw [pathSearch, hfind] at h
      cases h
  obtain ⟨hs, ht⟩ := hknown
  rw [namePaths_pathSearch hs ht] at h
  exact ⟨hs, ht, isPathBetween_of_mem_simplePaths h⟩

/-- **Where the caps do not bind, no path is missing.** -/
theorem CapsIdle.mem_namePaths (h : g.CapsIdle source target hops) (hs : g.table.containsName source = true)
    (ht : g.table.containsName target = true)
    (hp : g.IsPathBetween source target (g.limits.clampHops hops) p) :
    p ∈ (g.pathSearch source target hops).namePaths := by
  by_cases hne : source = target
  · subst hne
    rw [namePaths_pathSearch hs ht, simplePaths_self, isPathBetween_self.mp hp]
    exact List.mem_singleton_self _
  · -- the answer is that of a search with room for everything
    rw [← h (max g.limits.maxPaths _) (max g.limits.maxExpansions _) (Nat.le_max_left _ _) (Nat.le_max_left _ _),
      namePaths_withCaps hs ht hne (Nat.le_max_right _ _) (Nat.le_max_right _ _)]
    exact (mem_arrivals_iff g _ hne).mpr hp

/-- Caps that leave room for all candidates and all paths do not bind. -/
theorem capsIdle_of_room (hs : g.table.containsName source = true) (ht : g.table.containsName target = true)
    (hne : source ≠ target)
    (hexpansions : (candidates g.adjacency source target (g.limits.clampHops hops)).length
      ≤ g.limits.maxExpansions)
    (hpaths : ((candidates g.adjacency source target (g.limits.clampHops hops)).filter (arrives target)).length
      ≤ g.limits.maxPaths) : g.CapsIdle source target hops := by
  intro maxPaths maxExpansions hmore hmore'
  rw [namePaths_withCaps hs ht hne (Nat.le_trans hexpansions hmore') (Nat.le_trans hpaths hmore)]
  exact (namePaths_withCaps hs ht hne hexpansions hpaths).symm

/-- The edges of a symbol of the table are those that the table shows. -/
theorem edgesOf_ofSources {sources : List Source} (limits : Limits) {s : Symbol}
    (hs : s ∈ (SymbolTable.ofSources sources).symbols) :
    (ofSources sources limits).edgesOf s = (SymbolTable.ofSources sources).callEdges s := by
  obtain ⟨i, hi⟩ := List.getElem?_of_mem hs
  have hposition : (ofSources sources limits).table.positionOf? s.id = some i :=
    SymbolTable.positionOf?_ofFragments hi
  rw [edgesOf, hposition]
  exact edgesAt_of_getElem? hi

end CallGraph

/-! ### The table of some sources and more -/

namespace SymbolTable

variable {kept extra : List Source}

/-- The symbols of some sources are those of a larger table whose file is among theirs. -/
theorem symbols_eq_filter (hkeys : ((kept ++ extra).map Source.key).Nodup) :
    (ofSources kept).symbols
      = (ofSources (kept ++ extra)).symbols.filter fun s => s.file ∈ kept.map Source.key := by
  have hparts := hkeys
  rw [List.map_append, List.nodup_append] at hparts
  obtain ⟨hkept, -, hapart⟩ := hparts
  apply eq_of_keyOrder_pairwise (ofFragments_pairwise _) ((ofFragments_pairwise _).filter _)
  intro s
  show s ∈ (ofSources kept).symbols
    ↔ s ∈ (ofSources (kept ++ extra)).symbols.filter fun s => s.file ∈ kept.map Source.key
  rw [List.mem_filter, decide_eq_true_iff, mem_ofSources_iff hkept, mem_ofSources_iff hkeys]
  constructor
  · intro h
    obtain ⟨source, hsource, hs⟩ := h
    refine ⟨⟨source, List.mem_append_left extra hsource, hs⟩, ?_⟩
    rw [Extraction.file_eq hs]
    exact List.mem_map_of_mem hsource
  · intro h
    obtain ⟨⟨source, hsource, hs⟩, hfile⟩ := h
    refine ⟨source, (List.mem_append.mp hsource).resolve_right ?_, hs⟩
    -- a source that was added has a key of its own
    intro hextra
    rw [Extraction.file_eq hs] at hfile
    exact hapart _ hfile _ (List.mem_map_of_mem hextra) rfl

/-- The table of some sources grows to that of more. -/
theorem growsTo_append (hkeys : ((kept ++ extra).map Source.key).Nodup) :
    (ofSources kept).GrowsTo (ofSources (kept ++ extra)) := by
  have hkept : (kept.map Source.key).Nodup := by
    rw [List.map_append] at hkeys
    exact (List.nodup_append.mp hkeys).1
  constructor
  · intro s hs
    rw [symbols_eq_filter hkeys] at hs
    exact List.mem_of_mem_filter hs
  · intro s hs
    obtain ⟨source, hsource, hcut, hstored⟩ := exists_source_of_mem hkept hs
    have hstored' : (ofSources (kept ++ extra)).source? s.file = some source := by
      rw [hcut.file]
      exact source?_ofSources hkeys (List.mem_append_left extra hsource)
    rw [codeOf, codeOf, hstored, hstored']

end SymbolTable

/-- **More sources lose nothing.** Take some sources and add others, all under keys of their own. The symbols of the
first are those of all whose file is among the first, in the same order. Each of them keeps its edges, with callees
and lines, in their order; the edges that come with the others lead to names that were not known before. And if greater
caps would not change the answer to a search for paths among all sources, it holds every path that the same search
finds among the first. -/
theorem more_sources_lose_nothing (kept extra : List Source) (limits : Limits)
    (hkeys : ((kept ++ extra).map Source.key).Nodup) :
    (SymbolTable.ofSources kept).symbols
      = (SymbolTable.ofSources (kept ++ extra)).symbols.filter (fun s => s.file ∈ kept.map Source.key) ∧
    (∀ s ∈ (SymbolTable.ofSources kept).symbols,
      ((CallGraph.ofSources kept limits).edgesOf s).Sublist
        ((CallGraph.ofSources (kept ++ extra) limits).edgesOf s) ∧
      (CallGraph.ofSources kept limits).edgesOf s
        = ((CallGraph.ofSources (kept ++ extra) limits).edgesOf s).filter fun edge =>
            (SymbolTable.ofSources kept).containsName edge.callee) ∧
    ∀ source target hops, (CallGraph.ofSources (kept ++ extra) limits).CapsIdle source target hops →
      ∀ p ∈ ((CallGraph.ofSources kept limits).pathSearch source target hops).namePaths,
        p ∈ ((CallGraph.ofSources (kept ++ extra) limits).pathSearch source target hops).namePaths := by
  have hgrows := SymbolTable.growsTo_append hkeys
  refine ⟨SymbolTable.symbols_eq_filter hkeys, ?_, ?_⟩
  · intro s hs
    rw [CallGraph.edgesOf_ofSources limits hs, CallGraph.edgesOf_ofSources limits (hgrows.symbols s hs)]
    exact ⟨hgrows.callEdges_sublist hs, hgrows.callEdges_eq hs⟩
  · intro source target hops hidle p hp
    obtain ⟨hs, ht, hpath⟩ := CallGraph.isPathBetween_of_mem_namePaths hp
    exact hidle.mem_namePaths (hgrows.containsName source hs) (hgrows.containsName target ht)
      (hpath.grow hgrows)

/-- A function that calls another one of its source, and mentions a name which the source does not explain. -/
def callingSource : Source :=
  Source.ofText "a.c" .c "void s() { t(); u(); }\nvoid t() { }\n".toList

/-- The function that calls. -/
def callingSymbol : Symbol :=
  ⟨"s", .function, "a.c", 1, 1, "void s()", "void s() { t(); u(); }"⟩

/-- The source that explains the name. -/
def explainingSource : Source :=
  Source.ofText "b.c" .c "void u() { t(); }\n".toList

/-- With the second source come an edge of the first function and a path over it; what was there stays. -/
theorem explainingSource_loses_nothing :
    ([callingSource, explainingSource].map Source.key).Nodup ∧
    callingSymbol ∈ (SymbolTable.ofSources [callingSource]).symbols ∧
    ((CallGraph.ofSources [callingSource] {}).edgesOf callingSymbol).Sublist
      ((CallGraph.ofSources [callingSource, explainingSource] {}).edgesOf callingSymbol) ∧
    (CallGraph.ofSources [callingSource] {}).edgesOf callingSymbol = [⟨callingSymbol.id, "t", [1]⟩] ∧
    (CallGraph.ofSources [callingSource, explainingSource] {}).CapsIdle "s" "t" 5 ∧
    ["s", "t"] ∈ ((CallGraph.ofSources [callingSource] {}).pathSearch "s" "t" 5).namePaths ∧
    ["s", "t"] ∈ ((CallGraph.ofSources [callingSource, explainingSource] {}).pathSearch "s" "t" 5).namePaths := by
  have hkeys : ([callingSource, explainingSource].map Source.key).Nodup := by decide
  have hsmall : (SymbolTable.ofSources [callingSource]).symbols[0]? = some callingSymbol ∧
      (CallGraph.ofSources [callingSource] {}).edgesOf callingSymbol = [⟨callingSymbol.id, "t", [1]⟩] ∧
      ((CallGraph.ofSources [callingSource] {}).pathSearch "s" "t" 5).namePaths = [["s", "t"]] := by decide +kernel
  have hlarge : (CallGraph.ofSources [callingSource, explainingSource] {}).table.containsName "s" = true ∧
      (CallGraph.ofSources [callingSource, explainingSource] {}).table.containsName "t" = true ∧
      candidates (CallGraph.ofSources [callingSource, explainingSource] {}).adjacency "s" "t"
          ((CallGraph.ofSources [callingSource, explainingSource] {}).limits.clampHops 5)
        = [["s", "t"], ["s", "u"], ["s", "u", "t"]] := by decide +kernel
  obtain ⟨hfirst, hedges, hpaths⟩ := hsmall
  obtain ⟨hs, ht, hcandidates⟩ := hlarge
  have hmem := List.mem_of_getElem? hfirst
  have hpath : ["s", "t"] ∈ ((CallGraph.ofSources [callingSource] {}).pathSearch "s" "t" 5).namePaths := by
    rw [hpaths]
    exact List.mem_singleton_self _
  have hidle : (CallGraph.ofSources [callingSource, explainingSource] {}).CapsIdle "s" "t" 5 := by
    apply CallGraph.capsIdle_of_room hs ht (by decide)
    · rw [hcandidates]
      decide
    · rw [hcandidates]
      decide
  obtain ⟨-, hkept, hfound⟩ := more_sources_lose_nothing [callingSource] [explainingSource] {} hkeys
  exact ⟨hkeys, hmem, (hkept callingSymbol hmem).1, hedges, hidle, hpath, hfound "s" "t" 5 hidle _ hpath⟩

end CodeAtlas
