import CodeAtlas.Proofs.NameIndex
import CodeAtlas.Query.CallPath
import Mathlib.Data.List.Nodup

/-!
# Edges and names

What holds of every edge of a call graph, whatever the texts are, and what the graph says about names
once the symbols of one name are taken together.

* `SymbolTable.IsEdgeOf`, `SymbolTable.isEdgeOf_of_mem_callEdges`: an edge leads to another name that the
  table knows, and has a line;
* `CallGraph.HasCall`, `CallGraph.mem_adjacency`, `CallGraph.adjacency_nodup`: the names that a name
  calls, each listed once;
* `CallGraph.resolve_eq_reached`: a call reaches the symbols of the caller's file, or all if there are
  none there.
-/

namespace CodeAtlas

/-! ### Every edge has a known callee and a line -/

/-- What every edge of a symbol satisfies. -/
structure SymbolTable.IsEdgeOf (table : SymbolTable) (s : Symbol) (edge : CallEdge) : Prop where
  caller : edge.caller = s.id
  /-- The callee is the name of a symbol. -/
  known : table.containsName edge.callee = true
  /-- A symbol has no edge to its own name. -/
  other : edge.callee ≠ s.name
  /-- There is a first line. -/
  called : edge.lines ≠ []

theorem mem_addMention {caller : SymbolId} {name : String} {line : Nat} {edges : List CallEdge}
    {edge : CallEdge} (h : edge ∈ addMention caller name line edges) :
    edge ∈ edges ∨ edge = ⟨caller, name, [line]⟩ ∨
      ∃ old ∈ edges, edge = { old with lines := old.lines ++ [line] } := by
  induction edges with
  | nil => simpa [addMention] using h
  | cons old rest ih =>
    rw [addMention] at h
    split at h
    · -- the edge of the name stands here, and takes the line if it is a new one
      split at h
      · exact .inl h
      · rcases List.mem_cons.mp h with rfl | h
        · exact .inr (.inr ⟨old, List.mem_cons_self, rfl⟩)
        · exact .inl (List.mem_cons_of_mem old h)
    · rcases List.mem_cons.mp h with rfl | h
      · exact .inl List.mem_cons_self
      · rcases ih h with h | h | ⟨e, he, h⟩
        · exact .inl (List.mem_cons_of_mem old h)
        · exact .inr (.inl h)
        · exact .inr (.inr ⟨e, List.mem_cons_of_mem old he, h⟩)

theorem SymbolTable.isEdgeOf_of_mem_callEdges {table : SymbolTable} {s : Symbol} {edge : CallEdge}
    (h : edge ∈ table.callEdges s) : table.IsEdgeOf s edge := by
  revert edge
  rw [SymbolTable.callEdges]
  refine List.foldlRecOn (motive := fun edges => ∀ {edge}, edge ∈ edges → table.IsEdgeOf s edge)
    _ _ (fun h => absurd h List.not_mem_nil) ?_
  intro edges hedges m _ edge h
  dsimp only at h
  split at h
  · exact hedges h
  · rename_i hname
    simp only [Bool.or_eq_true, beq_iff_eq, Bool.not_eq_true', not_or, Bool.not_eq_false] at hname
    rcases mem_addMention h with h | rfl | ⟨old, hold, rfl⟩
    · exact hedges h
    · exact ⟨rfl, hname.2, hname.1, List.cons_ne_nil _ _⟩
    · have hw := hedges hold
      exact ⟨hw.caller, hw.known, hw.other, by simp⟩

namespace CallGraph

variable (g : CallGraph)

theorem edgesAt_eq (i : Nat) :
    g.edgesAt i = (g.table.symbols[i]?.map g.table.callEdges).getD [] := by
  rw [edgesAt, g.edges_eq, List.getElem?_map]

theorem exists_isEdgeOf {i : Nat} {edge : CallEdge} (h : edge ∈ g.edgesAt i) :
    ∃ s, g.table.symbols[i]? = some s ∧ g.table.IsEdgeOf s edge := by
  rw [edgesAt_eq] at h
  cases hs : g.table.symbols[i]? with
  | none => simp [hs] at h
  | some s =>
    rw [hs, Option.map_some, Option.getD_some] at h
    exact ⟨s, rfl, SymbolTable.isEdgeOf_of_mem_callEdges h⟩

theorem known_of_mem_edgesAt {i : Nat} {edge : CallEdge} (h : edge ∈ g.edgesAt i) :
    g.table.containsName edge.callee = true := by
  obtain ⟨s, -, hs⟩ := g.exists_isEdgeOf h
  exact hs.known

/-- The line of an edge is its first line. -/
theorem head?_lines_of_mem_edgesAt {i : Nat} {edge : CallEdge} (h : edge ∈ g.edgesAt i) :
    edge.lines.head? = some edge.line := by
  obtain ⟨s, -, hs⟩ := g.exists_isEdgeOf h
  obtain ⟨line, lines, hl⟩ := List.exists_cons_of_ne_nil hs.called
  simp [CallEdge.line, hl]

/-! ### Calls between names -/

/-- A name calls another if some symbol of the first has an edge to the second. -/
def HasCall (a b : String) : Prop :=
  ∃ i s, g.table.symbols[i]? = some s ∧ s.name = a ∧ ∃ edge ∈ g.edgesAt i, edge.callee = b

theorem HasCall.known {a b : String} (h : g.HasCall a b) : g.table.containsName b = true := by
  obtain ⟨i, s, -, -, edge, hedge, rfl⟩ := h
  exact g.known_of_mem_edgesAt hedge

end CallGraph

theorem addNames_cons (names : List String) (name : String) (more : List String) :
    addNames names (name :: more)
      = addNames (if names.contains name then names else names ++ [name]) more := rfl

theorem mem_addNames {name : String} (more : List String) :
    ∀ names : List String, name ∈ addNames names more ↔ name ∈ names ∨ name ∈ more := by
  induction more with
  | nil => intro names; simp [addNames]
  | cons first more ih =>
    intro names
    rw [addNames_cons, ih, List.mem_cons]
    by_cases h : first ∈ names
    · rw [if_pos (by simpa using h)]
      constructor
      · rintro (h' | h')
        · exact .inl h'
        · exact .inr (.inr h')
      · rintro (h' | rfl | h')
        · exact .inl h'
        · exact .inl h
        · exact .inr h'
    · rw [if_neg (by simpa using h), List.mem_append, List.mem_singleton, or_assoc]

theorem addNames_nodup (more : List String) :
    ∀ names : List String, names.Nodup → (addNames names more).Nodup := by
  induction more with
  | nil => intro names h; exact h
  | cons first more ih =>
    intro names h
    rw [addNames_cons]
    apply ih
    split
    · exact h
    · rename_i hfirst
      refine List.nodup_append.mpr ⟨h, List.nodup_singleton first, ?_⟩
      rintro a ha b hb rfl
      rw [List.mem_singleton] at hb
      exact hfirst (by simpa [hb] using ha)

namespace CallGraph

variable (g : CallGraph)

/-- What one symbol adds to the names that each name calls. -/
def addCalls (d : Dict (List String)) (p : Symbol × List CallEdge) : Dict (List String) :=
  d.insert p.1.name (addNames (d.getD p.1.name []) (p.2.map CallEdge.callee))

theorem adjacency_eq : g.adjacency = (g.table.symbols.zip g.edges).foldl addCalls ∅ := rfl

theorem mem_foldl_addCalls {a b : String} (pairs : List (Symbol × List CallEdge)) :
    ∀ d : Dict (List String),
      b ∈ (pairs.foldl addCalls d).getD a []
        ↔ b ∈ d.getD a [] ∨ ∃ p ∈ pairs, p.1.name = a ∧ ∃ edge ∈ p.2, edge.callee = b := by
  induction pairs with
  | nil => intro d; simp
  | cons p pairs ih =>
    intro d
    rw [List.foldl_cons, ih, addCalls]
    simp only [Std.ExtTreeMap.getD_insert, Std.LawfulEqCmp.compare_eq_iff_eq, List.mem_cons,
      exists_eq_or_imp]
    rw [← or_assoc]
    apply or_congr_left
    by_cases h : p.1.name = a
    · rw [if_pos h, mem_addNames, List.mem_map, h]
      simp
    · rw [if_neg h]
      simp [h]

theorem nodup_foldl_addCalls {a : String} (pairs : List (Symbol × List CallEdge)) :
    ∀ d : Dict (List String), (∀ a, (d.getD a []).Nodup) →
      ((pairs.foldl addCalls d).getD a []).Nodup := by
  induction pairs with
  | nil => intro d h; exact h a
  | cons p pairs ih =>
    intro d h
    rw [List.foldl_cons]
    apply ih
    intro c
    rw [addCalls, Std.ExtTreeMap.getD_insert]
    split
    · exact addNames_nodup _ _ (h _)
    · exact h c

/-- The names listed under a name are those it calls. -/
theorem mem_adjacency {a b : String} : b ∈ g.adjacency.getD a [] ↔ g.HasCall a b := by
  rw [adjacency_eq, mem_foldl_addCalls, Std.ExtTreeMap.getD_empty]
  simp only [List.not_mem_nil, false_or]
  constructor
  · rintro ⟨p, hp, hname, hedge⟩
    obtain ⟨i, hi⟩ := List.getElem?_of_mem hp
    obtain ⟨hs, he⟩ := List.getElem?_zip_eq_some.mp hi
    exact ⟨i, p.1, hs, hname, by rwa [edgesAt, he]⟩
  · rintro ⟨i, s, hs, hname, hedge⟩
    have he : g.edges[i]? = some (g.table.callEdges s) := by
      rw [g.edges_eq, List.getElem?_map, hs]; rfl
    rw [edgesAt, he] at hedge
    exact ⟨(s, g.table.callEdges s),
      List.mem_of_getElem? (List.getElem?_zip_eq_some.mpr ⟨hs, he⟩), hname, hedge⟩

/-- No name is listed twice under a name. -/
theorem adjacency_nodup (a : String) : (g.adjacency.getD a []).Nodup := by
  rw [adjacency_eq]
  exact nodup_foldl_addCalls _ _ (fun a => by simp)

/-! ### Where a call leads -/

/-- The positions of the symbols with a name, ascending. -/
def occurrencesOf (name : String) : List Nat :=
  (List.range g.table.size).filter fun i => g.table.symbols[i]?.any fun s => s.name == name

/-- The occurrences of a name in the caller's file if there are any, otherwise all its occurrences. -/
def reached (caller : Nat) (callee : String) : List Nat :=
  if ∃ i ∈ g.occurrencesOf callee, g.fileAt i = g.fileAt caller then
    (g.occurrencesOf callee).filter fun i => g.fileAt i = g.fileAt caller
  else g.occurrencesOf callee

theorem resolve_eq_reached (caller : Nat) (callee : String) :
    g.resolve caller callee = g.reached caller callee := by
  have hall : g.table.positions callee = g.occurrencesOf callee :=
    g.table.positions_eq_filter_range callee
  rw [resolve, reached, hall]
  simp only [List.isEmpty_iff, List.filter_eq_nil_iff, beq_eq_decide, decide_eq_true_eq]
  by_cases h : ∃ i ∈ g.occurrencesOf callee, g.fileAt i = g.fileAt caller
  · rw [if_pos h, if_neg (by simpa using h)]
  · rw [if_neg h, if_pos (by simpa using h)]

theorem name_of_mem_resolve {caller i : Nat} {callee : String} (h : i ∈ g.resolve caller callee) :
    ∃ s, g.table.symbols[i]? = some s ∧ s.name = callee := by
  rw [resolve] at h
  split at h
  · exact g.table.mem_positions.mp h
  · exact g.table.mem_positions.mp (List.mem_of_mem_filter h)

/-- A call of a known name reaches a symbol. -/
theorem resolve_ne_nil {caller : Nat} {callee : String} (h : g.table.containsName callee = true) :
    g.resolve caller callee ≠ [] := by
  rw [resolve]
  split
  · exact g.table.positions_ne_nil h
  · rename_i hnear
    simpa using hnear

end CallGraph

end CodeAtlas
