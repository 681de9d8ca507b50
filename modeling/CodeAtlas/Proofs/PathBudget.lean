import CodeAtlas.Proofs.CallPaths

/-!
# What the budget of a search hides

A search for paths extends only so many paths. When it has none to show, it reports that there is no path,
whether it has seen all candidates or has given up before. This file says which of the two the report means.

* `CallGraph.OutOfReach`: a path stands behind more candidates than a search may look at;
* `simplePaths_eq_nil_iff`: a search ends without a path if none is among the candidates that it may look at;
* `arrivals_eq_nil_of_unmarked`: one that is not marked as truncated has seen them all;
* `CallGraph.status_eq_noPath_iff`: the report says that every path is out of reach;
* `CallGraph.noPath_definitive_iff`: when the report can be relied on.
-/

namespace CodeAtlas

/-! ### Searches that end without a path -/

/-- The search finds nothing exactly when no path to the target is among the candidates within the budget. -/
theorem simplePaths_eq_nil_iff {adjacency : Dict (List String)} {source target : String} (limits : Limits)
    (hne : source ≠ target) (hops : Nat) :
    (simplePaths limits adjacency source target hops).paths = []
      ↔ ((candidates adjacency source target hops).take limits.maxExpansions).filter (arrives target)
        = [] := by
  rcases simplePaths_outcome limits hne hops with
    ⟨hwithin, -, heq⟩ | ⟨seen, p, rest, left, waiting, hcands, -, hstop⟩
  · rw [heq, List.take_of_length_le hwithin]
  · rw [hcands]
    generalize simplePaths limits adjacency source target hops = r at hstop
    cases hstop with
    | spent hspent => rw [← hspent, List.take_left]
    | full harr hwithin =>
      -- the path that fills the answer lies within the budget
      have hp : p ∈ (seen ++ p :: rest).take limits.maxExpansions := by
        obtain ⟨n, hn⟩ : ∃ n, limits.maxExpansions = seen.length + (n + 1) :=
          ⟨limits.maxExpansions - seen.length - 1, by omega⟩
        rw [hn, List.take_length_add_append, List.take_succ_cons]
        simp
      have hfound := List.ne_nil_of_mem (List.mem_filter.mpr ⟨hp, harr⟩)
      simp [hfound]

/-- A search that ends without a path and without the mark has seen all candidates, and none arrives. -/
theorem arrivals_eq_nil_of_unmarked {adjacency : Dict (List String)} {source target : String}
    {limits : Limits} {hops : Nat} (hne : source ≠ target)
    (hmark : (simplePaths limits adjacency source target hops).truncated = false)
    (hnone : (simplePaths limits adjacency source target hops).paths = []) :
    (candidates adjacency source target hops).filter (arrives target) = [] := by
  rcases simplePaths_outcome limits hne hops with
    ⟨-, -, heq⟩ | ⟨seen, p, rest, left, waiting, -, -, hstop⟩
  · rw [heq] at hnone
    exact hnone
  · generalize simplePaths limits adjacency source target hops = r at hstop hmark hnone
    cases hstop with
    | spent => cases hmark
    | full => simp at hnone

namespace CallGraph

/-- A path that the search does not come to: up to it there are more candidates than may be extended. -/
def OutOfReach (g : CallGraph) (source target : String) (hops : Nat) (p : NamePath) : Prop :=
  g.limits.maxExpansions
    < {q | g.IsCandidate source target hops q ∧ (q = p ∨ PathBefore g.adjacency q p)}.ncard

variable {g : CallGraph} {source target : String} {hops : Nat}

/-- A candidate is out of reach exactly when it is not among those within the budget. -/
theorem outOfReach_iff (hne : source ≠ target) {p : NamePath}
    (hp : p ∈ candidates g.adjacency source target hops) :
    g.OutOfReach source target hops p
      ↔ p ∉ (candidates g.adjacency source target hops).take g.limits.maxExpansions := by
  have hnodup := nodup_of_pairwise not_pathBefore_self (candidates_pairwise hne g.adjacency_nodup hops)
  obtain ⟨a, b, hcands⟩ := List.append_of_mem hp
  rw [OutOfReach, ncard_isCandidate_upTo hne hcands]
  rw [hcands] at hnodup ⊢
  have hfresh : p ∉ a := fun ha => (List.nodup_append.mp hnodup).2.2 p ha p List.mem_cons_self rfl
  rcases Nat.lt_or_ge a.length g.limits.maxExpansions with hlt | hge
  · have hmem : p ∈ (a ++ p :: b).take g.limits.maxExpansions := by
      rw [List.take_append, show g.limits.maxExpansions - a.length
        = g.limits.maxExpansions - a.length - 1 + 1 from by omega, List.take_succ_cons]
      simp
    simp only [hmem, not_true_eq_false, iff_false]
    omega
  · have hmem : p ∉ (a ++ p :: b).take g.limits.maxExpansions := by
      rw [List.take_append_of_le_length hge]
      exact fun h => hfresh (List.mem_of_mem_take h)
    simp only [hmem, not_false_eq_true, iff_true]
    omega

/-- From a name to itself there is nothing to extend. -/
theorem not_isCandidate_self (p : NamePath) : ¬ g.IsCandidate source source hops p := by
  intro h
  obtain ⟨hpath, hlong, -, hfree⟩ := h
  cases p with
  | nil => simp at hlong
  | cons a rest =>
    have hstart := hpath.starts
    cases rest with
    | nil => simp at hlong
    | cons b rest => simp_all

theorem status_eq_noPath_iff_nil (hs : g.table.containsName source = true)
    (ht : g.table.containsName target = true) :
    (g.pathSearch source target hops).status = .noPath source target
      ↔ (simplePaths g.limits g.adjacency source target (g.limits.clampHops hops)).paths = [] := by
  rw [pathSearch_of_known hs ht]
  show (if (simplePaths g.limits g.adjacency source target (g.limits.clampHops hops)).paths.isEmpty = true
    then QueryStatus.noPath source target else .found) = .noPath source target ↔ _
  simp

/-- **The report that there is no path** says that every path there is lies out of reach. -/
theorem status_eq_noPath_iff (hs : g.table.containsName source = true)
    (ht : g.table.containsName target = true) :
    (g.pathSearch source target hops).status = .noPath source target
      ↔ ∀ p, g.IsPathBetween source target (g.limits.clampHops hops) p →
        g.OutOfReach source target (g.limits.clampHops hops) p := by
  rw [status_eq_noPath_iff_nil hs ht]
  by_cases hne : source = target
  · subst hne
    -- the path of one name needs no extension
    have hreach : ¬ g.OutOfReach source source (g.limits.clampHops hops) [source] := by
      simp [OutOfReach, not_isCandidate_self]
    rw [simplePaths_self]
    simp only [List.cons_ne_nil, false_iff]
    exact fun h => hreach (h [source] (isPathBetween_self.mpr rfl))
  · rw [simplePaths_eq_nil_iff g.limits hne, List.filter_eq_nil_iff]
    constructor
    · intro hnone p hp
      obtain ⟨hcand, harr⟩ := List.mem_filter.mp ((mem_arrivals_iff g _ hne).mpr hp)
      exact (outOfReach_iff hne hcand).mpr fun hmem => hnone p hmem harr
    · intro hall p hmem harr
      have hcand := List.mem_of_mem_take hmem
      have hp := (mem_arrivals_iff g _ hne).mp (List.mem_filter.mpr ⟨hcand, harr⟩)
      exact (outOfReach_iff hne hcand).mp (hall p hp) hmem

/-- Without the mark, the report is right. -/
theorem not_isPathBetween_of_unmarked (hs : g.table.containsName source = true)
    (ht : g.table.containsName target = true)
    (hmark : (g.pathSearch source target hops).truncated = false)
    (hstatus : (g.pathSearch source target hops).status = .noPath source target) (p : NamePath) :
    ¬ g.IsPathBetween source target (g.limits.clampHops hops) p := by
  rw [truncated_pathSearch hs ht] at hmark
  rw [status_eq_noPath_iff_nil hs ht] at hstatus
  by_cases hne : source = target
  · subst hne
    rw [simplePaths_self] at hstatus
    cases hstatus
  · rw [← mem_arrivals_iff g _ hne, arrivals_eq_nil_of_unmarked hne hmark hstatus]
    exact List.not_mem_nil

/-- **When the answer that there is no path is definitive.** For every query between known names, that answer
excludes all simple paths within the clamped number of calls if and only if there is none at all, or one of
them can be reached within the budget. Where the answer is not marked as truncated, it always does. -/
theorem noPath_definitive_iff (g : CallGraph) (source target : String) (hops : Nat)
    (hs : g.table.containsName source = true) (ht : g.table.containsName target = true) :
    (((g.pathSearch source target hops).status = .noPath source target →
          ¬ ∃ p, g.IsPathBetween source target (g.limits.clampHops hops) p)
        ↔ ((¬ ∃ p, g.IsPathBetween source target (g.limits.clampHops hops) p) ∨
          ∃ p, g.IsPathBetween source target (g.limits.clampHops hops) p ∧
            ¬ g.OutOfReach source target (g.limits.clampHops hops) p)) ∧
      ((g.pathSearch source target hops).truncated = false →
        (g.pathSearch source target hops).status = .noPath source target →
          ¬ ∃ p, g.IsPathBetween source target (g.limits.clampHops hops) p) := by
  refine ⟨?_, ?_⟩
  · rw [status_eq_noPath_iff hs ht]
    constructor
    · intro hdefinite
      by_cases hall : ∀ p, g.IsPathBetween source target (g.limits.clampHops hops) p →
          g.OutOfReach source target (g.limits.clampHops hops) p
      · exact .inl (hdefinite hall)
      · push Not at hall
        exact .inr hall
    · intro hcase hall
      rcases hcase with hnone | hreach
      · exact hnone
      · obtain ⟨p, hp, hin⟩ := hreach
        exact absurd (hall p hp) hin
  · intro hmark hstatus hpath
    obtain ⟨p, hp⟩ := hpath
    exact not_isPathBetween_of_unmarked hs ht hmark hstatus p hp

/-- A call over one function in between, with a budget of one extension. -/
def relay : CallGraph :=
  .ofTable
    (.ofSources [.ofText "a.c" .c
      "void s() { a(); }\nvoid a() { t(); }\nvoid t() { }\n".toList])
    { maxExpansions := 1 }

/-- Against the direction of the calls, the answer of the relay is right. -/
theorem relay_noPath_definitive :
    relay.table.containsName "t" = true ∧ relay.table.containsName "s" = true ∧
      (relay.pathSearch "t" "s" 5).truncated = false ∧
      (relay.pathSearch "t" "s" 5).status = .noPath "t" "s" ∧
      ¬ ∃ p, relay.IsPathBetween "t" "s" (relay.limits.clampHops 5) p := by
  obtain ⟨ht, hs, hmark, hstatus⟩ : relay.table.containsName "t" = true ∧
      relay.table.containsName "s" = true ∧ (relay.pathSearch "t" "s" 5).truncated = false ∧
      (relay.pathSearch "t" "s" 5).status = .noPath "t" "s" := by decide +kernel
  exact ⟨ht, hs, hmark, hstatus, (noPath_definitive_iff relay "t" "s" 5 ht hs).2 hmark hstatus⟩

/-- Along the calls, the relay has a path of two calls, but the budget ends before it: the answer is that there is
no path. -/
theorem relay_denies_path :
    relay.table.containsName "s" = true ∧ relay.table.containsName "t" = true ∧
      (relay.pathSearch "s" "t" 5).status = .noPath "s" "t" ∧
      relay.IsPathBetween "s" "t" (relay.limits.clampHops 5) ["s", "a", "t"] := by
  have heval : relay.table.containsName "s" = true ∧ relay.table.containsName "t" = true ∧
      (relay.pathSearch "s" "t" 5).status = .noPath "s" "t" ∧
      (candidates relay.adjacency "s" "t" (relay.limits.clampHops 5)).filter (arrives "t")
        = [["s", "a", "t"]] := by decide +kernel
  obtain ⟨hs, ht, hstatus, hall⟩ := heval
  refine ⟨hs, ht, hstatus, ?_⟩
  rw [← mem_arrivals_iff relay _ (by decide), hall]
  simp

end CallGraph

end CodeAtlas
