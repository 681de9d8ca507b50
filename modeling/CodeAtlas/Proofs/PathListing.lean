import CodeAtlas.Query.CallPath
import Mathlib.Data.List.Chain
import Mathlib.Data.List.Nodup
import Mathlib.Data.List.Shortlex

/-!
# The simple paths between two names, listed

A list of all paths that a search by length can come to, written without the search: the paths of one
length are extended by every name that may follow, and those that have reached the target are not
extended again. The list is then described twice, by its members and by its order:

* `IsSimplePath`: a chain of calls on which no name repeats;
* `frontier`, `level`, `candidates`: the paths that wait to be extended, their extensions, and the
  extensions of all rounds;
* `mem_candidates`, `mem_arrivals`: the candidates are the simple paths that contain the target at most as
  their last name, and those that end at it are the simple paths between the two names;
* `PathBefore`, `candidates_pairwise`: the candidates are ordered by length, and paths of one length by the
  places of their names in the lists that they are taken from.
-/

namespace CodeAtlas

/-! ### Simple paths -/

theorem exists_getLast? {path : NamePath} (h : path ≠ []) : ∃ a, path.getLast? = some a :=
  ⟨_, List.getLast?_eq_some_getLast h⟩

/-- A chain of calls from a name on which no name repeats. -/
structure IsSimplePath (calls : String → String → Prop) (source : String) (path : NamePath) :
    Prop where
  starts : path.head? = some source
  linked : path.IsChain calls
  simple : path.Nodup

namespace IsSimplePath

variable {calls : String → String → Prop} {source : String} {path : NamePath}

theorem ne_nil (h : IsSimplePath calls source path) : path ≠ [] := by
  rintro rfl
  cases h.starts

theorem singleton : IsSimplePath calls source [source] :=
  ⟨rfl, List.isChain_singleton source, List.nodup_singleton source⟩

theorem eq_singleton (h : IsSimplePath calls source path) (hlen : path.length = 1) :
    path = [source] := by
  obtain ⟨a, rfl⟩ := List.length_eq_one_iff.mp hlen
  have hstart := h.starts
  simp only [List.head?_cons, Option.some.injEq] at hstart
  rw [hstart]

/-- A path grows at its end by a name that its last name calls and that is new on it. -/
theorem concat_iff {c : String} (hne : path ≠ []) :
    IsSimplePath calls source (path ++ [c])
      ↔ IsSimplePath calls source path ∧ (∀ a ∈ path.getLast?, calls a c) ∧ c ∉ path := by
  obtain ⟨b, rest, rfl⟩ := List.exists_cons_of_ne_nil hne
  constructor
  · rintro ⟨hstart, hlink, hsimple⟩
    obtain ⟨hlink, -, hlast⟩ := List.isChain_append.mp hlink
    obtain ⟨hsimple, -, hnew⟩ := List.nodup_append.mp hsimple
    refine ⟨⟨hstart, hlink, hsimple⟩, fun a ha => hlast a ha c rfl, fun hc => ?_⟩
    exact hnew c hc c List.mem_cons_self rfl
  · rintro ⟨⟨hstart, hlink, hsimple⟩, hlast, hnew⟩
    refine ⟨hstart, ?_, ?_⟩
    · refine List.isChain_append.mpr ⟨hlink, List.isChain_singleton c, ?_⟩
      intro a ha y hy
      rw [List.head?_cons, Option.mem_some_iff] at hy
      exact hy ▸ hlast a ha
    · refine List.nodup_append.mpr ⟨hsimple, List.nodup_singleton c, ?_⟩
      rintro a ha b hb rfl
      exact hnew (List.mem_singleton.mp hb ▸ ha)

/-- The last name of a simple path stands nowhere else on it. -/
theorem notMem_dropLast {last : String} (h : IsSimplePath calls source path)
    (hlast : path.getLast? = some last) : last ∉ path.dropLast := by
  have hsplit := List.dropLast_append_getLast? last hlast
  have hsimple := h.simple
  rw [← hsplit] at hsimple
  intro hmem
  exact (List.nodup_append.mp hsimple).2.2 last hmem last List.mem_cons_self rfl

end IsSimplePath

/-! ### Listing paths by length -/

variable (adjacency : Dict (List String)) (source target : String)

/-- A name may follow another. -/
def Follows (a b : String) : Prop :=
  b ∈ adjacency.getD a []

/-- The names that may follow the last name of a path. -/
def nextNames (path : NamePath) : List String :=
  (path.getLast?.bind (adjacency[·]?)).getD []

/-- The paths that have one new name more. -/
def extensions (path : NamePath) : List NamePath :=
  ((nextNames adjacency path).filter fun c => !path.contains c).map fun c => path ++ [c]

/-- Whether a path has come to the target. -/
def arrives (path : NamePath) : Bool :=
  path.getLast? == some target

/-- The paths with `k` calls that still avoid the target. -/
def frontier : Nat → List NamePath
  | 0 => [[source]]
  | k + 1 => ((frontier k).flatMap (extensions adjacency)).filter fun p => !arrives target p

/-- The extensions of the paths with `k` calls. -/
def level (k : Nat) : List NamePath :=
  (frontier adjacency source target k).flatMap (extensions adjacency)

/-- The extensions of all paths with fewer than `hops` calls. -/
def candidates (hops : Nat) : List NamePath :=
  (List.range hops).flatMap (level adjacency source target)

theorem frontier_succ (k : Nat) :
    frontier adjacency source target (k + 1)
      = (level adjacency source target k).filter fun p => !arrives target p := rfl

theorem candidates_succ (hops : Nat) :
    candidates adjacency source target (hops + 1)
      = candidates adjacency source target hops ++ level adjacency source target hops := by
  rw [candidates, List.range_succ, List.flatMap_append, List.flatMap_singleton, ← candidates]

/-- More calls only add candidates at the end. -/
theorem candidates_eq_append (k hops : Nat) :
    ∃ rest, candidates adjacency source target (k + hops)
      = candidates adjacency source target k ++ rest := by
  induction hops with
  | zero => exact ⟨[], by rw [List.append_nil]; rfl⟩
  | succ hops ih =>
    obtain ⟨rest, hrest⟩ := ih
    refine ⟨rest ++ level adjacency source target (k + hops), ?_⟩
    rw [← Nat.add_assoc, candidates_succ, hrest, List.append_assoc]

/-- The paths with `k` calls that avoid the target end the list of all such paths with at most `k`. -/
theorem exists_append_frontier (k : Nat) :
    ∃ left, ([source] :: (candidates adjacency source target k).filter fun p => !arrives target p)
      = left ++ frontier adjacency source target k := by
  cases k with
  | zero => exact ⟨[], rfl⟩
  | succ k =>
    refine ⟨[source] :: (candidates adjacency source target k).filter fun p => !arrives target p, ?_⟩
    rw [candidates_succ, List.filter_append, ← frontier_succ]
    rfl

variable {adjacency source target}

/-- Once no path can be extended, more calls add no candidate. -/
theorem candidates_eq_of_frontier_nil {k hops : Nat} (h : frontier adjacency source target k = []) :
    candidates adjacency source target (k + hops) = candidates adjacency source target k := by
  have hlater : ∀ j, frontier adjacency source target (k + j) = [] := by
    intro j
    induction j with
    | zero => exact h
    | succ j ih => rw [← Nat.add_assoc, frontier_succ, level, ih]; rfl
  induction hops with
  | zero => rfl
  | succ hops ih =>
    rw [← Nat.add_assoc, candidates_succ, ih, level, hlater hops]
    exact List.append_nil _

theorem nextNames_of_getLast? {path : NamePath} {a : String} (h : path.getLast? = some a) :
    nextNames adjacency path = adjacency.getD a [] := by
  rw [nextNames, h, Option.bind_some, Std.ExtTreeMap.getD_eq_getD_getElem?]

/-! ### Members -/

theorem mem_extensions {q p : NamePath} (hq : IsSimplePath (Follows adjacency) source q) :
    p ∈ extensions adjacency q
      ↔ ∃ c, p = q ++ [c] ∧ IsSimplePath (Follows adjacency) source p := by
  obtain ⟨a, ha⟩ := exists_getLast? hq.ne_nil
  rw [extensions, nextNames_of_getLast? ha]
  simp only [List.mem_map, List.mem_filter, List.contains_eq_mem, Bool.not_eq_true',
    decide_eq_false_iff_not]
  constructor
  · rintro ⟨c, ⟨hc, hnew⟩, rfl⟩
    refine ⟨c, rfl, (IsSimplePath.concat_iff hq.ne_nil).mpr ⟨hq, ?_, hnew⟩⟩
    intro b hb
    rw [ha, Option.mem_some_iff] at hb
    exact hb ▸ hc
  · rintro ⟨c, rfl, hp⟩
    obtain ⟨-, hlast, hnew⟩ := (IsSimplePath.concat_iff hq.ne_nil).mp hp
    exact ⟨c, ⟨hlast a ha, hnew⟩, rfl⟩

theorem arrives_concat {q : NamePath} {c : String} : arrives target (q ++ [c]) = (c == target) := by
  simp [arrives]

/-- The level after a frontier that is described: one name more, and the target nowhere before it. -/
theorem mem_level_of_frontier {k : Nat}
    (hf : ∀ q, q ∈ frontier adjacency source target k
      ↔ IsSimplePath (Follows adjacency) source q ∧ q.length = k + 1 ∧ target ∉ q)
    {p : NamePath} :
    p ∈ level adjacency source target k
      ↔ IsSimplePath (Follows adjacency) source p ∧ p.length = k + 2 ∧ target ∉ p.dropLast := by
  rw [level, List.mem_flatMap]
  constructor
  · rintro ⟨q, hq, hp⟩
    obtain ⟨hq, hlen, hfree⟩ := (hf q).mp hq
    obtain ⟨c, rfl, hp⟩ := (mem_extensions hq).mp hp
    exact ⟨hp, by simp [hlen], by simpa using hfree⟩
  · rintro ⟨hp, hlen, hfree⟩
    obtain ⟨c, hc⟩ := exists_getLast? hp.ne_nil
    have hsplit : p.dropLast ++ [c] = p := List.dropLast_append_getLast? c hc
    have hshort : p.dropLast.length = k + 1 := by rw [List.length_dropLast]; omega
    have hne : p.dropLast ≠ [] := List.ne_nil_of_length_pos (by omega)
    have hq : IsSimplePath (Follows adjacency) source p.dropLast := by
      rw [← hsplit] at hp
      exact ((IsSimplePath.concat_iff hne).mp hp).1
    exact ⟨p.dropLast, (hf _).mpr ⟨hq, hshort, hfree⟩, (mem_extensions hq).mpr ⟨c, hsplit.symm, hp⟩⟩

theorem mem_frontier (hne : source ≠ target) (k : Nat) :
    ∀ p, p ∈ frontier adjacency source target k
      ↔ IsSimplePath (Follows adjacency) source p ∧ p.length = k + 1 ∧ target ∉ p := by
  induction k with
  | zero =>
    intro p
    rw [frontier, List.mem_singleton]
    constructor
    · rintro rfl
      exact ⟨IsSimplePath.singleton, rfl, by simpa using hne.symm⟩
    · rintro ⟨hp, hlen, -⟩
      exact hp.eq_singleton hlen
  | succ k ih =>
    intro p
    rw [frontier_succ, List.mem_filter, mem_level_of_frontier ih]
    constructor
    · rintro ⟨⟨hp, hlen, hfree⟩, harr⟩
      obtain ⟨c, hc⟩ := exists_getLast? hp.ne_nil
      have hsplit : p.dropLast ++ [c] = p := List.dropLast_append_getLast? c hc
      have hct : target ≠ c := by
        rintro rfl
        simp [arrives, hc] at harr
      refine ⟨hp, hlen, ?_⟩
      rw [← hsplit, List.mem_append, List.mem_singleton]
      exact not_or.mpr ⟨hfree, hct⟩
    · rintro ⟨hp, hlen, hfree⟩
      refine ⟨⟨hp, hlen, fun h => hfree (List.dropLast_subset p h)⟩, ?_⟩
      simp only [arrives, Bool.not_eq_true', beq_eq_false_iff_ne, ne_eq]
      intro h
      exact hfree (List.mem_of_getLast? h)

/-- **The candidates are the simple paths with at least one call and at most `hops` that contain the
target at most as their last name.** -/
theorem mem_candidates (hne : source ≠ target) {hops : Nat} {p : NamePath} :
    p ∈ candidates adjacency source target hops
      ↔ IsSimplePath (Follows adjacency) source p ∧ 2 ≤ p.length ∧ p.length ≤ hops + 1 ∧
        target ∉ p.dropLast := by
  rw [candidates, List.mem_flatMap]
  simp only [List.mem_range]
  constructor
  · rintro ⟨k, hk, hp⟩
    obtain ⟨hp, hlen, hfree⟩ := (mem_level_of_frontier (mem_frontier hne k)).mp hp
    exact ⟨hp, by omega, by omega, hfree⟩
  · rintro ⟨hp, hlow, hhigh, hfree⟩
    refine ⟨p.length - 2, by omega, ?_⟩
    exact (mem_level_of_frontier (mem_frontier hne _)).mpr ⟨hp, by omega, hfree⟩

/-- **The candidates that have come to the target are the simple paths between the two names.** -/
theorem mem_arrivals (hne : source ≠ target) {hops : Nat} {p : NamePath} :
    p ∈ (candidates adjacency source target hops).filter (arrives target)
      ↔ IsSimplePath (Follows adjacency) source p ∧ p.getLast? = some target ∧
        p.length ≤ hops + 1 := by
  rw [List.mem_filter, mem_candidates hne, arrives, beq_iff_eq]
  constructor
  · rintro ⟨⟨hp, -, hhigh, -⟩, hlast⟩
    exact ⟨hp, hlast, hhigh⟩
  · rintro ⟨hp, hlast, hhigh⟩
    refine ⟨⟨hp, ?_, hhigh, hp.notMem_dropLast hlast⟩, hlast⟩
    -- a path of one name ends at its source
    by_contra hshort
    have hpos : 0 < p.length := List.length_pos_iff.mpr hp.ne_nil
    have hone := hp.eq_singleton (by omega)
    rw [hone, List.getLast?_singleton, Option.some.injEq] at hlast
    exact hne hlast

/-! ### Order -/

variable (adjacency) in
/-- The place of each name of a path, after the first, in the list of names that may stand there. -/
def ranks : NamePath → List Nat
  | a :: b :: rest => (adjacency.getD a []).idxOf b :: ranks (b :: rest)
  | _ => []

variable (adjacency) in
/-- The order of paths from one source: by length, then by the first places that differ. -/
def PathBefore (p q : NamePath) : Prop :=
  List.Shortlex (· < ·) (ranks adjacency p) (ranks adjacency q)

theorem length_ranks (p : NamePath) : (ranks adjacency p).length = p.length - 1 := by
  induction p with
  | nil => rfl
  | cons a rest ih =>
    cases rest with
    | nil => rfl
    | cons b rest =>
      rw [ranks, List.length_cons, ih]
      simp

theorem ranks_concat {q : NamePath} {a c : String} (ha : q.getLast? = some a) :
    ranks adjacency (q ++ [c]) = ranks adjacency q ++ [(adjacency.getD a []).idxOf c] := by
  induction q with
  | nil => cases ha
  | cons b rest ih =>
    cases rest with
    | nil =>
      rw [List.getLast?_singleton, Option.some.injEq] at ha
      rw [ha]
      rfl
    | cons d rest =>
      rw [List.getLast?_cons_cons] at ha
      show (adjacency.getD b []).idxOf d :: ranks adjacency ((d :: rest) ++ [c])
        = (adjacency.getD b []).idxOf d :: (ranks adjacency (d :: rest) ++ [_])
      rw [ih ha]

theorem not_pathBefore_self (p : NamePath) : ¬ PathBefore adjacency p p :=
  fun h => asymm_of (List.Shortlex (· < ·)) h h

theorem PathBefore.asymm {p q : NamePath} (h : PathBefore adjacency p q) :
    ¬ PathBefore adjacency q p :=
  fun h' => asymm_of (List.Shortlex (· < ·)) h h'

theorem PathBefore.of_length_lt {p q : NamePath} (hp : p ≠ []) (h : p.length < q.length) :
    PathBefore adjacency p q := by
  have hpos := List.length_pos_iff.mpr hp
  apply List.Shortlex.of_length_lt
  rw [length_ranks, length_ranks]
  omega

theorem PathBefore.length_le {p q : NamePath} (hp : p ≠ []) (hq : q ≠ [])
    (h : PathBefore adjacency p q) : p.length ≤ q.length := by
  have hppos := List.length_pos_iff.mpr hp
  have hqpos := List.length_pos_iff.mpr hq
  rw [PathBefore, List.shortlex_def, length_ranks, length_ranks] at h
  omega

/-- What decides between two lists of numbers of one length decides after more is put behind them. -/
theorem lex_append_of_lex {x y : List Nat} (u v : List Nat) (hlen : x.length = y.length)
    (h : List.Lex (· < ·) x y) : List.Lex (· < ·) (x ++ u) (y ++ v) := by
  induction h with
  | nil => simp at hlen
  | rel hab => exact List.Lex.rel hab
  | cons _ ih => exact List.Lex.cons (ih (by simpa using hlen))

/-- In a list without repeats, what stands earlier has the smaller place. -/
theorem pairwise_idxOf_lt (names : List String) (h : names.Nodup) :
    names.Pairwise fun b c => names.idxOf b < names.idxOf c := by
  rw [List.pairwise_iff_getElem]
  intro i j hi hj hij
  rw [h.idxOf_getElem i hi, h.idxOf_getElem j hj]
  exact hij

/-- The extensions of one path stand in the order of the names added. -/
theorem extensions_pairwise (hnodup : ∀ a, (adjacency.getD a []).Nodup) {q : NamePath} (hq : q ≠ []) :
    (extensions adjacency q).Pairwise (PathBefore adjacency) := by
  obtain ⟨a, ha⟩ := exists_getLast? hq
  rw [extensions, nextNames_of_getLast? ha, List.pairwise_map]
  refine List.Pairwise.imp ?_ ((pairwise_idxOf_lt _ (hnodup a)).filter _)
  intro b c hbc
  rw [PathBefore, ranks_concat ha, ranks_concat ha]
  refine List.Shortlex.of_lex (by simp) ?_
  exact List.Lex.append_left _ (List.Lex.rel hbc) _

/-- The order of two paths of one length passes on to their extensions. -/
theorem PathBefore.extensions {p q p' q' : NamePath} (hp : p ≠ []) (hq : q ≠ [])
    (hlen : p.length = q.length) (h : PathBefore adjacency p q)
    (hp' : p' ∈ extensions adjacency p) (hq' : q' ∈ extensions adjacency q) :
    PathBefore adjacency p' q' := by
  obtain ⟨a, ha⟩ := exists_getLast? hp
  obtain ⟨b, hb⟩ := exists_getLast? hq
  obtain ⟨c, -, rfl⟩ := List.mem_map.mp hp'
  obtain ⟨d, -, rfl⟩ := List.mem_map.mp hq'
  have hranks : (ranks adjacency p).length = (ranks adjacency q).length := by
    rw [length_ranks, length_ranks, hlen]
  rw [PathBefore, ranks_concat ha, ranks_concat hb]
  refine List.Shortlex.of_lex (by simp [hranks]) ?_
  exact lex_append_of_lex _ _ hranks ((List.shortlex_iff_lex hranks).mp h)

theorem level_pairwise (hne : source ≠ target) (hnodup : ∀ a, (adjacency.getD a []).Nodup) (k : Nat)
    (hf : (frontier adjacency source target k).Pairwise (PathBefore adjacency)) :
    (level adjacency source target k).Pairwise (PathBefore adjacency) := by
  rw [level, List.pairwise_flatMap]
  constructor
  · intro q hq
    exact extensions_pairwise hnodup ((mem_frontier hne k q).mp hq).1.ne_nil
  · refine List.Pairwise.imp_of_mem ?_ hf
    intro p q hp hq hpq p' hp' q' hq'
    obtain ⟨hp, hplen, -⟩ := (mem_frontier hne k p).mp hp
    obtain ⟨hq, hqlen, -⟩ := (mem_frontier hne k q).mp hq
    exact hpq.extensions hp.ne_nil hq.ne_nil (hplen.trans hqlen.symm) hp' hq'

theorem frontier_pairwise (hne : source ≠ target) (hnodup : ∀ a, (adjacency.getD a []).Nodup)
    (k : Nat) : (frontier adjacency source target k).Pairwise (PathBefore adjacency) := by
  induction k with
  | zero => exact List.pairwise_singleton _ _
  | succ k ih => exact (level_pairwise hne hnodup k ih).filter _

/-- **The candidates are listed in the order of paths.** -/
theorem candidates_pairwise (hne : source ≠ target) (hnodup : ∀ a, (adjacency.getD a []).Nodup)
    (hops : Nat) : (candidates adjacency source target hops).Pairwise (PathBefore adjacency) := by
  rw [candidates, List.pairwise_flatMap]
  constructor
  · intro k _
    exact level_pairwise hne hnodup k (frontier_pairwise hne hnodup k)
  · refine List.Pairwise.imp ?_ List.pairwise_lt_range
    intro k k' hk p hp q hq
    obtain ⟨hp, hplen, -⟩ := (mem_level_of_frontier (mem_frontier hne k)).mp hp
    obtain ⟨-, hqlen, -⟩ := (mem_level_of_frontier (mem_frontier hne k')).mp hq
    exact PathBefore.of_length_lt hp.ne_nil (by omega)

end CodeAtlas
