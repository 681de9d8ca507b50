import CodeAtlas.Proofs.CallEdges
import CodeAtlas.Proofs.PathSearch
import Mathlib.Data.Set.Card

/-!
# Which paths the answer holds

The answer to a query for paths, compared with all simple paths between the two names. The paths are
described by the calls between names, their order by the lists of called names, and the limits by counting
paths; the search itself is not mentioned.

* `CallGraph.IsPathBetween`, `CallGraph.IsCandidate`: the paths that are asked for, and those that a search
  may have to look at;
* `CallGraph.pathSearch_lists_simple_paths`: the answer is a first part of the ordered list of all paths,
  and as long as the limits allow;
* `CallGraph.StopsSilently`, `CallGraph.untruncated_complete_iff`: when an answer that is not marked as
  truncated holds all paths.
-/

namespace CodeAtlas

/-! ### Counting in an ordered list -/

section Ordered

variable {r : NamePath → NamePath → Prop} {list first rest : List NamePath} {p q : NamePath}

theorem nodup_of_pairwise (hr : ∀ p, ¬ r p p) (h : list.Pairwise r) : list.Nodup := by
  refine h.imp ?_
  rintro p q hpq rfl
  exact hr p hpq

theorem ncard_of_mem_iff {P : NamePath → Prop} (hnodup : list.Nodup) (hmem : ∀ p, p ∈ list ↔ P p) :
    {p | P p}.ncard = list.length := by
  have hset : {p | P p} = (list.toFinset : Set NamePath) := by
    ext p
    simp [hmem]
  rw [hset, Set.ncard_coe_finset, List.toFinset_card_of_nodup hnodup]

/-- In an ordered list, what comes before an element in the order stands before it in the list. -/
theorem mem_first_iff (hasymm : ∀ p q, r p q → ¬ r q p) (h : (first ++ p :: rest).Pairwise r) :
    q ∈ first ↔ q ∈ first ++ p :: rest ∧ r q p := by
  obtain ⟨-, hpair, hcross⟩ := List.pairwise_append.mp h
  constructor
  · intro hq
    exact ⟨List.mem_append_left _ hq, hcross q hq p List.mem_cons_self⟩
  · rintro ⟨hq, hqp⟩
    rcases List.mem_append.mp hq with hq | hq
    · exact hq
    · rcases List.mem_cons.mp hq with rfl | hq
      · exact absurd hqp (hasymm _ _ hqp)
      · exact absurd hqp (hasymm _ _ ((List.pairwise_cons.mp hpair).1 q hq))

/-- The place of an element in an ordered list counts the elements up to it. -/
theorem ncard_upTo {P : NamePath → Prop} (hasymm : ∀ p q, r p q → ¬ r q p)
    (h : (first ++ p :: rest).Pairwise r) (hmem : ∀ q, q ∈ first ++ p :: rest ↔ P q) :
    {q | P q ∧ (q = p ∨ r q p)}.ncard = first.length + 1 := by
  have hirrefl : ∀ p, ¬ r p p := fun p hp => hasymm p p hp hp
  have hnodup : (first ++ [p]).Nodup := by
    refine (nodup_of_pairwise hirrefl h).sublist ?_
    exact List.Sublist.append_left (by simp) first
  rw [ncard_of_mem_iff hnodup, List.length_append, List.length_singleton]
  intro q
  rw [List.mem_append, List.mem_singleton, mem_first_iff hasymm h, hmem]
  constructor
  · rintro (⟨hq, hqp⟩ | rfl)
    · exact ⟨hq, .inr hqp⟩
    · exact ⟨(hmem q).mp (by simp), .inl rfl⟩
  · rintro ⟨hq, rfl | hqp⟩
    · exact .inr rfl
    · exact .inl ⟨hq, hqp⟩

end Ordered

namespace CallGraph

variable (g : CallGraph)

/-! ### A symbol for every name -/

/-- All names on a path from a known name are known. -/
theorem known_of_mem_path {source : String} {path : NamePath} (hs : g.table.containsName source = true)
    (h : IsSimplePath g.HasCall source path) : ∀ name ∈ path, g.table.containsName name = true := by
  obtain ⟨hstart, hlink, -⟩ := h
  induction path generalizing source with
  | nil => cases hstart
  | cons a rest ih =>
    rw [List.head?_cons, Option.some.injEq] at hstart
    intro name hname
    rcases List.mem_cons.mp hname with rfl | hname
    · rw [hstart]; exact hs
    · cases rest with
      | nil => cases hname
      | cons b rest =>
        obtain ⟨hab, hlink⟩ := List.isChain_cons_cons.mp hlink
        exact ih hab.known rfl hlink name hname

/-- The positions from which the symbol for a name on a path is picked. -/
def choices (previous : Option Nat) (name : String) : List Nat :=
  match previous with
  | some caller => if g.calls caller name then g.resolve caller name else g.table.positions name
  | none => g.table.positions name

/-- The picked position, for a name that is followed by `rest`. -/
def choice (previous : Option Nat) (name : String) (rest : NamePath) : Option Nat :=
  ((g.choices previous name).find? fun i => rest.head?.any (g.calls i)).or (g.choices previous name).head?

theorem representativesAfter_cons (previous : Option Nat) (name : String) (rest : NamePath) :
    g.representativesAfter previous (name :: rest)
      = match g.choice previous name rest with
        | none => []
        | some i => ⟨name, (g.table.symbols[i]?.getD default).id⟩ :: g.representativesAfter (some i) rest :=
  rfl

/-- A known name has a symbol to pick. -/
theorem exists_choice {name : String} (h : g.table.containsName name = true) (previous : Option Nat)
    (rest : NamePath) : ∃ i, g.choice previous name rest = some i := by
  have hne : g.choices previous name ≠ [] := by
    cases previous with
    | none => exact g.table.positions_ne_nil h
    | some caller =>
      rw [choices]
      split
      · exact g.resolve_ne_nil h
      · exact g.table.positions_ne_nil h
  obtain ⟨i, others, hcons⟩ := List.exists_cons_of_ne_nil hne
  rw [choice, hcons]
  cases (i :: others).find? fun i => rest.head?.any (g.calls i) with
  | none => exact ⟨i, rfl⟩
  | some j => exact ⟨j, rfl⟩

/-- Where every name is known, no step of the path is dropped. -/
theorem names_representativesAfter (path : NamePath)
    (h : ∀ name ∈ path, g.table.containsName name = true) :
    ∀ previous, (g.representativesAfter previous path).map PathStep.name = path := by
  induction path with
  | nil => intro previous; rfl
  | cons name rest ih =>
    intro previous
    obtain ⟨i, hi⟩ := g.exists_choice (h name List.mem_cons_self) previous rest
    rw [representativesAfter_cons, hi]
    show name :: (g.representativesAfter (some i) rest).map PathStep.name = name :: rest
    rw [ih (fun n hn => h n (List.mem_cons_of_mem name hn))]

/-! ### The paths that are asked for -/

/-- A simple path between two names with at most `hops` calls. -/
def IsPathBetween (source target : String) (hops : Nat) (path : NamePath) : Prop :=
  IsSimplePath g.HasCall source path ∧ path.getLast? = some target ∧ path.length ≤ hops + 1

/-- A simple path from a name with at least one call and at most `hops` that holds the target at most as its
last name. -/
def IsCandidate (source target : String) (hops : Nat) (path : NamePath) : Prop :=
  IsSimplePath g.HasCall source path ∧ 2 ≤ path.length ∧ path.length ≤ hops + 1 ∧
    target ∉ path.dropLast

theorem follows_adjacency : Follows g.adjacency = g.HasCall := by
  funext a b
  exact propext g.mem_adjacency

variable {g} {source target : String} {hops : Nat}

theorem mem_candidates_iff (g : CallGraph) (hops : Nat) (hne : source ≠ target) {p : NamePath} :
    p ∈ candidates g.adjacency source target hops ↔ g.IsCandidate source target hops p := by
  rw [mem_candidates hne, g.follows_adjacency]
  rfl

theorem ncard_isCandidate (g : CallGraph) (hops : Nat) (hne : source ≠ target) :
    {p | g.IsCandidate source target hops p}.ncard
      = (candidates g.adjacency source target hops).length :=
  ncard_of_mem_iff
    (nodup_of_pairwise not_pathBefore_self (candidates_pairwise hne g.adjacency_nodup hops))
    (fun _ => mem_candidates_iff g hops hne)

theorem mem_arrivals_iff (g : CallGraph) (hops : Nat) (hne : source ≠ target) {p : NamePath} :
    p ∈ (candidates g.adjacency source target hops).filter (arrives target)
      ↔ g.IsPathBetween source target hops p := by
  rw [mem_arrivals hne, g.follows_adjacency]
  rfl

/-- The only simple path from a name to itself. -/
theorem isPathBetween_self {p : NamePath} : g.IsPathBetween source source hops p ↔ p = [source] := by
  constructor
  · rintro ⟨hp, hlast, -⟩
    by_contra hlong
    obtain ⟨a, rest, rfl⟩ := List.exists_cons_of_ne_nil hp.ne_nil
    have hstart := hp.starts
    rw [List.head?_cons, Option.some.injEq] at hstart
    subst hstart
    cases rest with
    | nil => exact hlong rfl
    | cons b rest =>
      rw [List.getLast?_cons_cons] at hlast
      exact (List.nodup_cons.mp hp.simple).1 (List.mem_of_getLast? hlast)
  · rintro rfl
    exact ⟨IsSimplePath.singleton, rfl, by simp⟩

/-! ### The answer in terms of the search -/

theorem pathSearch_of_known (hs : g.table.containsName source = true)
    (ht : g.table.containsName target = true) :
    g.pathSearch source target hops
      = let found := simplePaths g.limits g.adjacency source target (g.limits.clampHops hops)
        ⟨source, target, g.limits.clampHops hops, found.paths.map g.representatives, found.truncated,
          if found.paths.isEmpty then .noPath source target else .found⟩ := by
  have hnone : [source, target].find? (fun name => !g.table.containsName name) = none := by
    simp [hs, ht]
  rw [pathSearch, hnone]

theorem simplePaths_self : simplePaths g.limits g.adjacency source source hops = ⟨[[source]], false⟩ := by
  rw [simplePaths, if_pos (by simp)]

/-- All paths that the search finds are among those asked for. -/
theorem isPathBetween_of_mem_simplePaths {p : NamePath}
    (h : p ∈ (simplePaths g.limits g.adjacency source target hops).paths) :
    g.IsPathBetween source target hops p := by
  by_cases hne : source = target
  · subst hne
    rw [simplePaths_self, List.mem_singleton] at h
    exact isPathBetween_self.mpr h
  · rw [← mem_arrivals_iff g hops hne]
    rcases simplePaths_outcome g.limits hne hops with
      ⟨-, -, heq⟩ | ⟨seen, q, rest, left, waiting, hcands, -, hstop⟩
    · rw [heq] at h
      exact h
    · rw [hcands, List.filter_append]
      revert h
      generalize simplePaths g.limits g.adjacency source target hops = r at hstop
      intro h
      cases hstop with
      | spent => exact List.mem_append_left _ h
      | full harr =>
        rw [List.filter_cons_of_pos harr]
        rcases List.mem_append.mp h with h | h
        · exact List.mem_append_left _ h
        · rw [List.mem_singleton.mp h]
          exact List.mem_append_right _ List.mem_cons_self

theorem namePaths_pathSearch (hs : g.table.containsName source = true)
    (ht : g.table.containsName target = true) :
    (g.pathSearch source target hops).namePaths
      = (simplePaths g.limits g.adjacency source target (g.limits.clampHops hops)).paths := by
  rw [pathSearch_of_known hs ht, PathResult.namePaths, List.map_map]
  refine (List.map_congr_left fun p hp => ?_).trans (List.map_id _)
  have hpath := isPathBetween_of_mem_simplePaths hp
  exact g.names_representativesAfter p (g.known_of_mem_path hs hpath.1) none

theorem truncated_pathSearch (hs : g.table.containsName source = true)
    (ht : g.table.containsName target = true) :
    (g.pathSearch source target hops).truncated
      = (simplePaths g.limits g.adjacency source target (g.limits.clampHops hops)).truncated := by
  rw [pathSearch_of_known hs ht]

/-! ### The answer is a first part of the list of all paths -/

theorem arrivals_pairwise (g : CallGraph) (hops : Nat) (hne : source ≠ target) :
    ((candidates g.adjacency source target hops).filter (arrives target)).Pairwise
      (PathBefore g.adjacency) :=
  (candidates_pairwise hne g.adjacency_nodup hops).filter _

/-- A search ends with a first part of the arrivals, which is as long as the cap allows unless the
extensions run out. -/
theorem simplePaths_initial (g : CallGraph) (hops : Nat) (hne : source ≠ target) :
    (simplePaths g.limits g.adjacency source target hops).paths
        <+: (candidates g.adjacency source target hops).filter (arrives target) ∧
      ((candidates g.adjacency source target hops).length ≤ g.limits.maxExpansions →
        (simplePaths g.limits g.adjacency source target hops).paths.length
          = min ((candidates g.adjacency source target hops).filter (arrives target)).length
              g.limits.pathCap) := by
  rcases simplePaths_outcome g.limits hne hops with
    ⟨-, hbelow, heq⟩ | ⟨seen, p, rest, left, waiting, hcands, -, hstop⟩
  · rw [heq]
    exact ⟨List.prefix_refl _, fun _ => (Nat.min_eq_left hbelow.le).symm⟩
  · rw [hcands, List.filter_append]
    generalize simplePaths g.limits g.adjacency source target hops = r at hstop
    cases hstop with
    | spent hspent =>
      refine ⟨List.prefix_append _ _, fun hwithin => ?_⟩
      -- the candidate at which the extensions ran out is one more than there may be
      rw [List.length_append, List.length_cons] at hwithin
      omega
    | full harr _ hfull =>
      rw [List.filter_cons_of_pos harr]
      refine ⟨⟨rest.filter (arrives target), by simp⟩, fun _ => ?_⟩
      simp only [List.length_append, List.length_cons, List.length_nil]
      omega

/-- **Path search enumerates exactly the simple paths, in a fixed order.** There is one list of all simple
paths between two known names with at most the clamped number of calls, ordered by length and then by the
places of the called names; the answer is a first part of it. If the candidates are no more than the search
may extend, it holds as many of these paths as the cap lets it. -/
theorem pathSearch_lists_simple_paths (g : CallGraph) (source target : String) (hops : Nat)
    (hs : g.table.containsName source = true) (ht : g.table.containsName target = true) :
    ∃ all : List NamePath,
      (∀ p, p ∈ all ↔ g.IsPathBetween source target (g.limits.clampHops hops) p) ∧
      all.Pairwise (PathBefore g.adjacency) ∧
      (source = target → all = [[source]]) ∧
      (g.pathSearch source target hops).namePaths <+: all ∧
      ({p | g.IsCandidate source target (g.limits.clampHops hops) p}.ncard ≤ g.limits.maxExpansions →
        (g.pathSearch source target hops).namePaths.length = min all.length (max g.limits.maxPaths 1)) := by
  rw [namePaths_pathSearch hs ht]
  by_cases hne : source = target
  · subst hne
    refine ⟨[[source]], fun p => ?_, List.pairwise_singleton _ _, fun _ => rfl, ?_, fun _ => ?_⟩
    · rw [isPathBetween_self, List.mem_singleton]
    · rw [simplePaths_self]
    · rw [simplePaths_self, List.length_singleton, Nat.min_eq_left (Nat.le_max_right _ _)]
  · obtain ⟨hinitial, hlength⟩ := simplePaths_initial g (g.limits.clampHops hops) hne
    refine ⟨_, fun p => mem_arrivals_iff g _ hne, arrivals_pairwise g _ hne, fun h => absurd h hne,
      hinitial, ?_⟩
    intro hwithin
    rw [ncard_isCandidate g _ hne] at hwithin
    exact hlength hwithin

/-- A symbol on one line whose body is the given text. -/
def lineSymbol (name : String) (line : Nat) (body : String) : Symbol :=
  ⟨name, .function, "m.c", line, line, "", body⟩

/-- Four names that call each other in circles. -/
def ring (maxPaths : Nat) : CallGraph :=
  .ofTable
    (.ofFragments [⟨.ofText "n.c" .c [],
      [lineSymbol "s" 1 "a b", lineSymbol "a" 2 "b t s", lineSymbol "b" 3 "a t", lineSymbol "t" 4 "s"],
      [], 0⟩])
    { maxPaths := maxPaths }

/-- Of the four paths on the ring, an answer with two holds the first two. -/
theorem ring_lists_simple_paths :
    (ring 2).table.containsName "s" = true ∧ (ring 2).table.containsName "t" = true ∧
      {p | (ring 2).IsCandidate "s" "t" ((ring 2).limits.clampHops 4) p}.ncard
        ≤ (ring 2).limits.maxExpansions ∧
      ∃ all : List NamePath,
        (∀ p, p ∈ all ↔ (ring 2).IsPathBetween "s" "t" ((ring 2).limits.clampHops 4) p) ∧
        all.Pairwise (PathBefore (ring 2).adjacency) ∧
        ((ring 2).pathSearch "s" "t" 4).namePaths <+: all ∧
        ((ring 2).pathSearch "s" "t" 4).namePaths.length = min all.length 2 := by
  obtain ⟨hs, ht⟩ : (ring 2).table.containsName "s" = true ∧ (ring 2).table.containsName "t" = true := by
    decide +kernel
  have hcount : {p | (ring 2).IsCandidate "s" "t" ((ring 2).limits.clampHops 4) p}.ncard
      ≤ (ring 2).limits.maxExpansions := by
    rw [ncard_isCandidate (ring 2) _ (by decide)]
    decide +kernel
  obtain ⟨all, hmem, hpair, -, hinitial, hlength⟩ := pathSearch_lists_simple_paths (ring 2) "s" "t" 4 hs ht
  exact ⟨hs, ht, hcount, all, hmem, hpair, hinitial, hlength hcount⟩

/-! ### When an answer without the mark is complete -/

/-- The search stops at a path and does not mark the answer, although paths are left. The path is the last
one that the answer may hold and lies within the extensions; it is reached while no path waits, that is,
every path without the target that comes before it is also not after the path that it extends; and another
path comes after it. -/
structure StopsSilently (g : CallGraph) (source target : String) (hops : Nat) (p : NamePath) : Prop where
  path : g.IsPathBetween source target hops p
  full : {q | g.IsPathBetween source target hops q ∧ (q = p ∨ PathBefore g.adjacency q p)}.ncard
    = max g.limits.maxPaths 1
  within : {q | g.IsCandidate source target hops q ∧ (q = p ∨ PathBefore g.adjacency q p)}.ncard
    ≤ g.limits.maxExpansions
  idle : ∀ w, IsSimplePath g.HasCall source w → target ∉ w → PathBefore g.adjacency w p →
    w = p.dropLast ∨ PathBefore g.adjacency w p.dropLast
  more : ∃ q, g.IsPathBetween source target hops q ∧ PathBefore g.adjacency p q

theorem pathBefore_asymm (p q : NamePath) :
    PathBefore g.adjacency p q → ¬ PathBefore g.adjacency q p :=
  fun h => h.asymm

/-- The paths that enter the queue before a candidate `p` is reached. -/
theorem mem_entered_iff {seen rest : List NamePath} {p w : NamePath} (hne : source ≠ target)
    (hcands : candidates g.adjacency source target hops = seen ++ p :: rest) :
    (w ∈ [source] :: seen.filter fun q => !arrives target q)
      ↔ IsSimplePath g.HasCall source w ∧ target ∉ w ∧ PathBefore g.adjacency w p := by
  have hpair := candidates_pairwise hne g.adjacency_nodup hops
  have hp : g.IsCandidate source target hops p :=
    (mem_candidates_iff g hops hne).mp (by rw [hcands]; simp)
  have hmem : ∀ q, q ∈ seen ++ p :: rest ↔ g.IsCandidate source target hops q := by
    intro q
    rw [← hcands, mem_candidates_iff g hops hne]
  rw [hcands] at hpair
  rw [List.mem_cons, List.mem_filter, mem_first_iff pathBefore_asymm hpair, hmem]
  constructor
  · rintro (rfl | ⟨⟨⟨hw, hlow, -, hfree⟩, hbefore⟩, harr⟩)
    · refine ⟨IsSimplePath.singleton, by simpa using hne.symm, ?_⟩
      exact PathBefore.of_length_lt (List.cons_ne_nil _ _) hp.2.1
    · refine ⟨hw, fun htarget => ?_, hbefore⟩
      obtain ⟨a, ha⟩ := exists_getLast? hw.ne_nil
      rw [← List.dropLast_append_getLast? a ha, List.mem_append, List.mem_singleton] at htarget
      rcases htarget with htarget | rfl
      · exact hfree htarget
      · simp [arrives, ha] at harr
  · rintro ⟨hw, hfree, hbefore⟩
    by_cases hone : w.length = 1
    · exact .inl (hw.eq_singleton hone)
    · have hpos := List.length_pos_iff.mpr hw.ne_nil
      have hle := hbefore.length_le hw.ne_nil hp.1.ne_nil
      refine .inr ⟨⟨⟨hw, by omega, hle.trans hp.2.2.1, ?_⟩, hbefore⟩, ?_⟩
      · exact fun h => hfree (List.dropLast_subset w h)
      · simp only [arrives, Bool.not_eq_true', beq_eq_false_iff_ne, ne_eq]
        exact fun h => hfree (List.mem_of_getLast? h)

/-- The queue is empty at a candidate exactly when no path without the target lies between the path that the
candidate extends and the candidate. -/
theorem waiting_eq_nil_iff {seen rest left waiting : List NamePath} {p : NamePath} (hne : source ≠ target)
    (hcands : candidates g.adjacency source target hops = seen ++ p :: rest)
    (hqueue : ([source] :: seen.filter fun q => !arrives target q) = left ++ p.dropLast :: waiting) :
    waiting = [] ↔ ∀ w, IsSimplePath g.HasCall source w → target ∉ w → PathBefore g.adjacency w p →
      w = p.dropLast ∨ PathBefore g.adjacency w p.dropLast := by
  have hpair : (left ++ p.dropLast :: waiting).Pairwise (PathBefore g.adjacency) := by
    rw [← hqueue, List.pairwise_cons]
    have hcand := candidates_pairwise hne g.adjacency_nodup hops
    rw [hcands] at hcand
    constructor
    · intro q hq
      have hq : q ∈ candidates g.adjacency source target hops := by
        rw [hcands]
        exact List.mem_append_left _ (List.mem_of_mem_filter hq)
      have hlow := ((mem_candidates_iff g hops hne).mp hq).2.1
      exact PathBefore.of_length_lt (List.cons_ne_nil _ _) hlow
    · exact (List.pairwise_append.mp hcand).1.filter _
  have hentered := fun w => mem_entered_iff (w := w) hne hcands
  rw [hqueue] at hentered
  obtain ⟨-, hlast, hleft⟩ := List.pairwise_append.mp hpair
  constructor
  · rintro rfl w hw hfree hbefore
    rcases List.mem_append.mp ((hentered w).mpr ⟨hw, hfree, hbefore⟩) with h | h
    · exact .inr (hleft w h _ List.mem_cons_self)
    · exact .inl (List.mem_singleton.mp h)
  · intro hidle
    refine List.eq_nil_iff_forall_not_mem.mpr fun w hw => ?_
    obtain ⟨hsimple, hfree, hbefore⟩ :=
      (hentered w).mp (List.mem_append_right _ (List.mem_cons_of_mem _ hw))
    have hafter := (List.pairwise_cons.mp hlast).1 w hw
    rcases hidle w hsimple hfree hbefore with rfl | h
    · exact not_pathBefore_self _ hafter
    · exact h.asymm hafter

theorem filter_arrives_split {a b : List NamePath} {p : NamePath} (hp : arrives target p = true) :
    (a ++ p :: b).filter (arrives target)
      = a.filter (arrives target) ++ p :: b.filter (arrives target) := by
  rw [List.filter_append, List.filter_cons_of_pos hp]

/-- The place of a candidate counts the candidates up to it. -/
theorem ncard_isCandidate_upTo {a b : List NamePath} {p : NamePath} (hne : source ≠ target)
    (hcands : candidates g.adjacency source target hops = a ++ p :: b) :
    {q | g.IsCandidate source target hops q ∧ (q = p ∨ PathBefore g.adjacency q p)}.ncard
      = a.length + 1 := by
  have hpair := candidates_pairwise hne g.adjacency_nodup hops
  have hmem := fun q => mem_candidates_iff g hops hne (p := q)
  rw [hcands] at hpair hmem
  exact ncard_upTo pathBefore_asymm hpair hmem

/-- The place of a path to the target among those found counts the paths up to it. -/
theorem ncard_isPathBetween_upTo {a b : List NamePath} {p : NamePath} (hne : source ≠ target)
    (hcands : candidates g.adjacency source target hops = a ++ p :: b) (harr : arrives target p = true) :
    {q | g.IsPathBetween source target hops q ∧ (q = p ∨ PathBefore g.adjacency q p)}.ncard
      = (a.filter (arrives target)).length + 1 := by
  have hpair := arrivals_pairwise g hops hne
  have hmem := fun q => mem_arrivals_iff g hops hne (p := q)
  rw [hcands, filter_arrives_split harr] at hpair hmem
  exact ncard_upTo pathBefore_asymm hpair hmem

/-- A path at which the search could stop silently fills the answer, at a place within the extensions. -/
theorem StopsSilently.split {p : NamePath} (h : g.StopsSilently source target hops p)
    (hne : source ≠ target) :
    ∃ a b, candidates g.adjacency source target hops = a ++ p :: b ∧ arrives target p = true ∧
      (a.filter (arrives target)).length + 1 = g.limits.pathCap ∧
      a.length + 1 ≤ g.limits.maxExpansions := by
  obtain ⟨hmem, harr⟩ := List.mem_filter.mp ((mem_arrivals_iff g hops hne).mpr h.path)
  obtain ⟨a, b, hcands⟩ := List.append_of_mem hmem
  refine ⟨a, b, hcands, harr, ?_, ?_⟩
  · rw [← ncard_isPathBetween_upTo hne hcands harr]
    exact h.full
  · rw [← ncard_isCandidate_upTo hne hcands]
    exact h.within

/-- A search that has seen all candidates without meeting the cap does not stop silently. -/
theorem not_stopsSilently_of_below (hne : source ≠ target)
    (hbelow : ((candidates g.adjacency source target hops).filter (arrives target)).length
      < g.limits.pathCap) (p : NamePath) : ¬ g.StopsSilently source target hops p := by
  intro h
  obtain ⟨a, b, hcands, harr, hfull, -⟩ := h.split hne
  rw [hcands, filter_arrives_split harr, List.length_append, List.length_cons] at hbelow
  omega

/-- A search that runs out of extensions below the cap does not stop silently. -/
theorem not_stopsSilently_of_spent {seen rest : List NamePath} {q : NamePath} (hne : source ≠ target)
    (hcands : candidates g.adjacency source target hops = seen ++ q :: rest)
    (hspent : seen.length = g.limits.maxExpansions)
    (hbelow : (seen.filter (arrives target)).length < g.limits.pathCap) (p : NamePath) :
    ¬ g.StopsSilently source target hops p := by
  intro h
  obtain ⟨a, b, hcands', harr, hfull, hwithin⟩ := h.split hne
  -- both `a ++ [p]` and `seen` begin the list of candidates, and the first is not longer
  have hup : a ++ [p] <+: candidates g.adjacency source target hops :=
    ⟨b, by rw [hcands', List.append_assoc, List.singleton_append]⟩
  have hseen : seen <+: candidates g.adjacency source target hops := ⟨q :: rest, hcands.symm⟩
  have hfirst : a ++ [p] <+: seen := by
    refine List.prefix_of_prefix_length_le hup hseen ?_
    rw [List.length_append, List.length_singleton]
    omega
  have hle := (hfirst.sublist.filter (arrives target)).length_le
  rw [List.filter_append, List.filter_singleton, harr, List.length_append] at hle
  simp only [cond_true, List.length_singleton] at hle
  omega

/-- The cap is reached at one candidate only. -/
theorem StopsSilently.eq_of_full {seen rest : List NamePath} {p q : NamePath}
    (h : g.StopsSilently source target hops p) (hne : source ≠ target)
    (hcands : candidates g.adjacency source target hops = seen ++ q :: rest)
    (harr : arrives target q = true)
    (hfull : (seen.filter (arrives target)).length + 1 = g.limits.pathCap) : p = q := by
  obtain ⟨a, b, hcands', harr', hfull', -⟩ := h.split hne
  have hsame : (a ++ p :: b).filter (arrives target) = (seen ++ q :: rest).filter (arrives target) := by
    rw [← hcands, ← hcands']
  rw [filter_arrives_split harr', filter_arrives_split harr] at hsame
  have hcons := (List.append_inj hsame (by omega)).2
  exact (List.cons.inj hcons).1

/-- What it means that the search stops silently at the candidate at which the cap is reached. -/
theorem stopsSilently_iff_of_full {seen rest left waiting : List NamePath} {p : NamePath}
    (hne : source ≠ target) (hcands : candidates g.adjacency source target hops = seen ++ p :: rest)
    (hqueue : ([source] :: seen.filter fun q => !arrives target q) = left ++ p.dropLast :: waiting)
    (harr : arrives target p = true) (hwithin : seen.length < g.limits.maxExpansions)
    (hfull : (seen.filter (arrives target)).length + 1 = g.limits.pathCap) :
    g.StopsSilently source target hops p
      ↔ waiting = [] ∧ ∃ q ∈ rest, arrives target q = true := by
  have hfound := arrivals_pairwise g hops hne
  have harrival := fun q => mem_arrivals_iff g hops hne (p := q)
  rw [hcands, filter_arrives_split harr] at hfound harrival
  obtain ⟨-, hafter, hbefore⟩ := List.pairwise_append.mp hfound
  constructor
  · intro h
    refine ⟨(waiting_eq_nil_iff hne hcands hqueue).mpr h.idle, ?_⟩
    obtain ⟨q, hq, hpq⟩ := h.more
    rcases List.mem_append.mp ((harrival q).mpr hq) with hq | hq
    · exact absurd hpq (hbefore q hq p List.mem_cons_self).asymm
    · rcases List.mem_cons.mp hq with rfl | hq
      · exact absurd hpq (not_pathBefore_self q)
      · exact ⟨q, List.mem_filter.mp hq⟩
  · rintro ⟨hidle, q, hq, hqarr⟩
    refine ⟨(harrival p).mp (by simp), ?_, ?_, (waiting_eq_nil_iff hne hcands hqueue).mp hidle, ?_⟩
    · rw [ncard_isPathBetween_upTo hne hcands harr]
      exact hfull
    · rw [ncard_isCandidate_upTo hne hcands]
      exact hwithin
    · have hq : q ∈ rest.filter (arrives target) := List.mem_filter.mpr ⟨hq, hqarr⟩
      refine ⟨q, (harrival q).mp (by simp [hq]), (List.pairwise_cons.mp hafter).1 q hq⟩

/-- The search answers without the mark and leaves a path out exactly when it stops silently. -/
theorem simplePaths_hides_iff (hne : source ≠ target) :
    ((simplePaths g.limits g.adjacency source target hops).truncated = false ∧
        ∃ p, g.IsPathBetween source target hops p ∧
          p ∉ (simplePaths g.limits g.adjacency source target hops).paths)
      ↔ ∃ p, g.StopsSilently source target hops p := by
  simp only [← mem_arrivals_iff g hops hne]
  rcases simplePaths_outcome g.limits hne hops with
    ⟨-, hbelow, heq⟩ | ⟨seen, q, rest, left, waiting, hcands, hqueue, hstop⟩
  · rw [heq]
    constructor
    · rintro ⟨-, p, hp, hp'⟩
      exact absurd hp hp'
    · rintro ⟨p, hp⟩
      exact absurd hp (not_stopsSilently_of_below hne hbelow p)
  · generalize simplePaths g.limits g.adjacency source target hops = r at hstop
    cases hstop with
    | spent hspent hbelow =>
      constructor
      · rintro ⟨hmark, -⟩
        cases hmark
      · rintro ⟨p, hp⟩
        exact absurd hp (not_stopsSilently_of_spent hne hcands hspent hbelow p)
    | full harr hwithin hfull =>
      have hsilent := stopsSilently_iff_of_full hne hcands hqueue harr hwithin hfull
      have hnodup := nodup_of_pairwise not_pathBefore_self (arrivals_pairwise g hops hne)
      rw [hcands, filter_arrives_split harr] at hnodup
      simp only [hcands, filter_arrives_split harr]
      constructor
      · rintro ⟨hmark, p, hp, hleft⟩
        refine ⟨q, hsilent.mpr ⟨by simpa using hmark, p, ?_⟩⟩
        rw [List.append_cons, List.mem_append] at hp
        exact List.mem_filter.mp (hp.resolve_left hleft)
      · rintro ⟨p, hp⟩
        obtain rfl := hp.eq_of_full hne hcands harr hfull
        obtain ⟨hidle, w, hw, hwarr⟩ := hsilent.mp hp
        have hw : w ∈ rest.filter (arrives target) := List.mem_filter.mpr ⟨hw, hwarr⟩
        refine ⟨by simp [hidle], w, by simp [hw], fun hearly => ?_⟩
        rw [List.append_cons] at hnodup
        exact (List.nodup_append.mp hnodup).2.2 w hearly w hw rfl

/-- **An answer without the mark is complete, except where the search stops silently.** For every query
between known names, the absence of the mark promises all simple paths within the clamped number of calls
if and only if there is no path at which the cap is reached while nothing waits and a later path is left. -/
theorem untruncated_complete_iff (g : CallGraph) (source target : String) (hops : Nat)
    (hs : g.table.containsName source = true) (ht : g.table.containsName target = true) :
    ((g.pathSearch source target hops).truncated = false →
        ∀ p, g.IsPathBetween source target (g.limits.clampHops hops) p →
          p ∈ (g.pathSearch source target hops).namePaths)
      ↔ ¬ ∃ p, g.StopsSilently source target (g.limits.clampHops hops) p := by
  rw [namePaths_pathSearch hs ht, truncated_pathSearch hs ht]
  by_cases hne : source = target
  · subst hne
    constructor
    · rintro - ⟨p, hp⟩
      obtain ⟨q, hq, hpq⟩ := hp.more
      rw [isPathBetween_self.mp hq, isPathBetween_self.mp hp.path] at hpq
      exact not_pathBefore_self _ hpq
    · intro _ _ p hp
      rw [simplePaths_self, isPathBetween_self.mp hp]
      exact List.mem_singleton_self _
  · rw [← simplePaths_hides_iff hne]
    push Not
    rfl

/-- On the ring, an answer that may hold ten paths is complete. -/
theorem ring_untruncated_complete :
    (ring 10).table.containsName "s" = true ∧ (ring 10).table.containsName "t" = true ∧
      (((ring 10).pathSearch "s" "t" 4).truncated = false →
          ∀ p, (ring 10).IsPathBetween "s" "t" ((ring 10).limits.clampHops 4) p →
            p ∈ ((ring 10).pathSearch "s" "t" 4).namePaths) ∧
      ¬ ∃ p, (ring 10).StopsSilently "s" "t" ((ring 10).limits.clampHops 4) p := by
  obtain ⟨hs, ht⟩ : (ring 10).table.containsName "s" = true ∧ (ring 10).table.containsName "t" = true := by
    decide +kernel
  have hnone : ¬ ∃ p, (ring 10).StopsSilently "s" "t" ((ring 10).limits.clampHops 4) p := by
    rintro ⟨p, hp⟩
    exact not_stopsSilently_of_below (by decide) (by decide +kernel) p hp
  exact ⟨hs, ht, (untruncated_complete_iff (ring 10) "s" "t" 4 hs ht).mpr hnone, hnone⟩

/-- A function that calls the target first and another caller of the target after it; answers hold one
path. -/
def fork : CallGraph :=
  .ofTable
    (.ofSources [.ofText "a.c" .c
      "void s() { t(); a(); }\nvoid a() { t(); }\nvoid t() { }\n".toList])
    { maxPaths := 1 }

/-- The search on the fork ends while the second call is not yet in the queue: its answer has no mark, and
the path over that call is missing. -/
theorem fork_hides_path :
    fork.table.containsName "s" = true ∧ fork.table.containsName "t" = true ∧
      (fork.pathSearch "s" "t" 5).truncated = false ∧
      fork.IsPathBetween "s" "t" (fork.limits.clampHops 5) ["s", "a", "t"] ∧
      ["s", "a", "t"] ∉ (fork.pathSearch "s" "t" 5).namePaths := by
  have heval : fork.table.containsName "s" = true ∧ fork.table.containsName "t" = true ∧
      (fork.pathSearch "s" "t" 5).truncated = false ∧
      (candidates fork.adjacency "s" "t" (fork.limits.clampHops 5)).filter (arrives "t")
        = [["s", "t"], ["s", "a", "t"]] ∧
      (fork.pathSearch "s" "t" 5).namePaths = [["s", "t"]] := by decide +kernel
  obtain ⟨hs, ht, hmark, hall, hpaths⟩ := heval
  refine ⟨hs, ht, hmark, ?_, ?_⟩
  · rw [← mem_arrivals_iff fork _ (by decide), hall]
    simp
  · rw [hpaths]
    simp

end CallGraph

end CodeAtlas
