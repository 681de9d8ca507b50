import CodeAtlas.Proofs.PathListing

/-!
# The search goes through the candidates in order

A search for paths looks at one candidate after the other, in the order in which they are listed, until it
has gone through all of them or a limit stops it. What it holds at any time can be read off the candidates
that it has seen:

* `PathSearch.Holds`: the found paths, the queue and the count, in terms of the candidates seen;
* `PathSearch.Stops`: the two ways in which a limit ends the search at a candidate;
* `PathSearch.extend_spec`, `PathSearch.round_spec`, `PathSearch.rounds_spec`: extending one path, a round of
  paths and all rounds, each from what the one before preserves;
* `simplePaths_outcome`: every search ends in one of three ways.
-/

namespace CodeAtlas

/-- The number of paths at which a search stops. It stops after a path, so the number is at least one. -/
def Limits.pathCap (limits : Limits) : Nat :=
  max limits.maxPaths 1

namespace PathSearch

/-! ### What a search holds, and how it ends -/

/-- What a search holds after the candidates `seen` of the rounds before and `now` of this one. -/
structure Holds (limits : Limits) (target : String) (seen now : List NamePath) (s : PathSearch) :
    Prop where
  found : s.found.toList = (seen ++ now).filter (arrives target)
  queue : s.queue.toList = now.filter fun p => !arrives target p
  expansions : s.expansions = (seen ++ now).length
  /-- The search goes on only below the cap. -/
  below : ((seen ++ now).filter (arrives target)).length < limits.pathCap
  within : (seen ++ now).length ≤ limits.maxExpansions

/-- How a limit ends the search at the candidate `p`, after `seen` and with the paths `waiting` to be
extended. -/
inductive Stops (limits : Limits) (target : String) (seen : List NamePath) (p : NamePath)
    (waiting : List NamePath) : FoundPaths → Prop
  /-- No more paths may be extended. -/
  | spent (hspent : seen.length = limits.maxExpansions)
      (hbelow : (seen.filter (arrives target)).length < limits.pathCap) :
      Stops limits target seen p waiting ⟨seen.filter (arrives target), true⟩
  /-- The candidate is the last path that the answer may hold. -/
  | full (harrives : arrives target p = true) (hwithin : seen.length < limits.maxExpansions)
      (hfull : (seen.filter (arrives target)).length + 1 = limits.pathCap) :
      Stops limits target seen p waiting ⟨seen.filter (arrives target) ++ [p], !waiting.isEmpty⟩

/-- A part of the search goes on in a state with one property, or ends with an answer with another. -/
def Ends (onward : PathSearch → Prop) (stop : FoundPaths → Prop) : Except FoundPaths PathSearch → Prop
  | .ok s => onward s
  | .error r => stop r

theorem Ends.mono {onward onward' : PathSearch → Prop} {stop stop' : FoundPaths → Prop}
    {e : Except FoundPaths PathSearch} (h : Ends onward stop e)
    (honward : ∀ s, onward s → onward' s) (hstop : ∀ r, stop r → stop' r) :
    Ends onward' stop' e := by
  cases e with
  | ok s => exact honward s h
  | error r => exact hstop r h

/-- Two parts in a row: an answer of the first is the answer of both. -/
theorem Ends.bind {onward onward' : PathSearch → Prop} {stop stop' : FoundPaths → Prop}
    {e : Except FoundPaths PathSearch} {f : PathSearch → Except FoundPaths PathSearch}
    (h : Ends onward stop e) (hnext : ∀ s, onward s → Ends onward' stop' (f s))
    (hstop : ∀ r, stop r → stop' r) : Ends onward' stop' (e >>= f) := by
  cases e with
  | ok s => exact hnext s h
  | error r => exact hstop r h

variable {limits : Limits} {target : String} {seen now : List NamePath} {s : PathSearch}

/-! ### One candidate -/

/-- A candidate that has come to the target is found. -/
theorem Holds.arrive {p : NamePath} (h : Holds limits target seen now s) (hp : arrives target p = true)
    (hwithin : ¬ limits.maxExpansions < s.expansions + 1)
    (hbelow : ¬ limits.maxPaths ≤ (s.found.push p).size) :
    Holds limits target seen (now ++ [p])
      { s with expansions := s.expansions + 1, found := s.found.push p } := by
  have hsize : s.found.size = ((seen ++ now).filter (arrives target)).length := by
    rw [← h.found, Array.length_toList]
  have hexp := h.expansions
  refine ⟨?_, ?_, ?_, ?_, ?_⟩
  · simp [h.found, hp]
  · simp [h.queue, hp]
  · rw [← List.append_assoc, List.length_append, ← h.expansions]; rfl
  · rw [Array.size_push] at hbelow
    rw [← List.append_assoc, List.filter_append, List.length_append, ← hsize,
      List.filter_singleton, hp, Limits.pathCap]
    simp only [cond_true, List.length_singleton]
    omega
  · rw [← List.append_assoc, List.length_append, List.length_singleton]
    omega

/-- Any other candidate waits to be extended. -/
theorem Holds.wait {p : NamePath} (h : Holds limits target seen now s) (hp : arrives target p = false)
    (hwithin : ¬ limits.maxExpansions < s.expansions + 1) :
    Holds limits target seen (now ++ [p])
      { s with expansions := s.expansions + 1, queue := s.queue.push p } := by
  have hexp := h.expansions
  refine ⟨?_, ?_, ?_, ?_, ?_⟩
  · simp [h.found, hp]
  · simp [h.queue, hp]
  · rw [← List.append_assoc, List.length_append, ← h.expansions]; rfl
  · have hbelow := h.below
    simpa [← List.append_assoc, hp] using hbelow
  · rw [← List.append_assoc, List.length_append, List.length_singleton]
    omega

/-- A candidate beyond the number of extensions ends the search. -/
theorem Holds.spend {p : NamePath} {waiting : List NamePath} (h : Holds limits target seen now s)
    (hspent : limits.maxExpansions < s.expansions + 1) :
    Stops limits target (seen ++ now) p waiting ⟨s.found.toList, true⟩ := by
  have hexp := h.expansions
  have hwithin := h.within
  rw [h.found]
  exact Stops.spent (by omega) h.below

/-- A candidate that fills the answer ends the search. -/
theorem Holds.fill {p : NamePath} {others : List NamePath} (h : Holds limits target seen now s)
    (hp : arrives target p = true) (hwithin : ¬ limits.maxExpansions < s.expansions + 1)
    (hfull : limits.maxPaths ≤ (s.found.push p).size) :
    Stops limits target (seen ++ now) p (others ++ s.queue.toList)
      ⟨(s.found.push p).toList, !others.isEmpty || !s.queue.isEmpty⟩ := by
  have hexp := h.expansions
  have hbelow := h.below
  have hwaiting : (!others.isEmpty || !s.queue.isEmpty) = !(others ++ s.queue.toList).isEmpty := by
    cases others with
    | nil => simp
    | cons q others => rfl
  rw [Array.size_push, ← Array.length_toList, h.found] at hfull
  rw [hwaiting, Array.toList_push, h.found]
  refine Stops.full hp (by omega) ?_
  rw [Limits.pathCap] at *
  omega

/-! ### Extending one path -/

/-- The paths that a path and some names give. -/
def longer (path : NamePath) (names : List String) : List NamePath :=
  (names.filter fun c => !path.contains c).map fun c => path ++ [c]

theorem longer_cons_old {path : NamePath} {c : String} (rest : List String)
    (h : path.contains c = true) : longer path (c :: rest) = longer path rest := by
  rw [longer, List.filter_cons_of_neg (by simp only [h]; decide), longer]

theorem longer_cons_new {path : NamePath} {c : String} (rest : List String)
    (h : ¬ path.contains c = true) :
    longer path (c :: rest) = (path ++ [c]) :: longer path rest := by
  rw [longer, List.filter_cons_of_pos (by simp only [h]; decide), List.map_cons, longer]

/-- The end of a search within some candidates: at one of them, after those before it. The paths in
`others` wait since before the round. -/
def StopsWithin (limits : Limits) (target : String) (seen now others cands : List NamePath)
    (r : FoundPaths) : Prop :=
  ∃ done p rest, cands = done ++ p :: rest ∧
    Stops limits target (seen ++ (now ++ done)) p
      (others ++ (now ++ done).filter fun p => !arrives target p) r

theorem StopsWithin.cons {others cands : List NamePath} {p : NamePath} {r : FoundPaths}
    (h : StopsWithin limits target seen (now ++ [p]) others cands r) :
    StopsWithin limits target seen now others (p :: cands) r := by
  obtain ⟨done, q, rest, rfl, hstop⟩ := h
  refine ⟨p :: done, q, rest, rfl, ?_⟩
  rw [List.append_assoc, List.singleton_append] at hstop
  exact hstop

/-- **Extending a path goes through the longer paths in order.** -/
theorem extend_spec (path : NamePath) (others : List NamePath) (callees : List String) :
    ∀ (now : List NamePath) (s : PathSearch), Holds limits target seen now s →
      Ends (Holds limits target seen (now ++ longer path callees))
        (StopsWithin limits target seen now others (longer path callees))
        (s.extend limits target (!others.isEmpty) path callees) := by
  induction callees with
  | nil =>
    intro now s h
    simpa [extend, Ends, longer] using h
  | cons c rest ih =>
    intro now s h
    rw [extend]
    by_cases hold : path.contains c = true
    · rw [if_pos hold, longer_cons_old rest hold]
      exact ih now s h
    rw [if_neg hold, longer_cons_new rest hold]
    -- the search has come to the candidate `path ++ [c]`
    have hstep : ∀ s', Holds limits target seen (now ++ [path ++ [c]]) s' →
        Ends (Holds limits target seen (now ++ (path ++ [c]) :: longer path rest))
          (StopsWithin limits target seen now others ((path ++ [c]) :: longer path rest))
          (s'.extend limits target (!others.isEmpty) path rest) := by
      intro s' h'
      refine (ih _ s' h').mono (fun s'' h'' => ?_) (fun r hr => hr.cons)
      rw [List.append_assoc, List.singleton_append] at h''
      exact h''
    have hstop : ∀ r, Stops limits target (seen ++ now) (path ++ [c]) (others ++ s.queue.toList) r →
        StopsWithin limits target seen now others ((path ++ [c]) :: longer path rest) r := by
      intro r hr
      refine ⟨[], path ++ [c], longer path rest, rfl, ?_⟩
      rw [List.append_nil, ← h.queue]
      exact hr
    by_cases hspent : limits.maxExpansions < s.expansions + 1
    · rw [if_pos hspent]
      exact hstop _ (h.spend hspent)
    rw [if_neg hspent]
    by_cases harr : (c == target) = true
    · have hp : arrives target (path ++ [c]) = true := by rw [arrives_concat, harr]
      rw [if_pos harr]
      by_cases hfull : limits.maxPaths ≤ (s.found.push (path ++ [c])).size
      · rw [if_pos hfull]
        exact hstop _ (h.fill hp hspent hfull)
      · rw [if_neg hfull]
        exact hstep _ (h.arrive hp hspent hfull)
    · have hp : arrives target (path ++ [c]) = false := by rw [arrives_concat]; simpa using harr
      rw [if_neg harr]
      exact hstep _ (h.wait hp hspent)

/-! ### Rounds -/

variable {adjacency : Dict (List String)} {source : String}

/-- The end of a search within a round: at an extension of one of its paths. The paths after that one and
the extensions so far are waiting. -/
def StopsInRound (limits : Limits) (adjacency : Dict (List String)) (target : String)
    (seen now paths : List NamePath) (r : FoundPaths) : Prop :=
  ∃ before q after, paths = before ++ q :: after ∧
    StopsWithin limits target seen (now ++ before.flatMap (extensions adjacency)) after
      (extensions adjacency q) r

theorem StopsInRound.cons {paths : List NamePath} {q : NamePath} {r : FoundPaths}
    (h : StopsInRound limits adjacency target seen (now ++ extensions adjacency q) paths r) :
    StopsInRound limits adjacency target seen now (q :: paths) r := by
  obtain ⟨before, q', after, rfl, hstop⟩ := h
  refine ⟨q :: before, q', after, rfl, ?_⟩
  rw [List.flatMap_cons, ← List.append_assoc]
  exact hstop

/-- **A round goes through the extensions of its paths in order.** -/
theorem round_spec (paths : List NamePath) :
    ∀ (now : List NamePath) (s : PathSearch), Holds limits target seen now s →
      Ends (Holds limits target seen (now ++ paths.flatMap (extensions adjacency)))
        (StopsInRound limits adjacency target seen now paths)
        (s.round limits adjacency target paths) := by
  induction paths with
  | nil =>
    intro now s h
    simpa [round, Ends] using h
  | cons q rest ih =>
    intro now s h
    rw [round]
    refine (extend_spec q rest (nextNames adjacency q) now s h).bind (fun s' h' => ?_) (fun r hr => ?_)
    · rw [List.flatMap_cons, ← List.append_assoc]
      exact (ih _ s' h').mono (fun _ h'' => h'') (fun r hr => hr.cons)
    · refine ⟨[], q, rest, rfl, ?_⟩
      rw [List.flatMap_nil, List.append_nil]
      exact hr

/-- A new round starts with an empty queue. -/
theorem Holds.nextRound (h : Holds limits target seen now s) :
    Holds limits target (seen ++ now) [] { s with queue := #[] } := by
  refine ⟨?_, rfl, ?_, ?_, ?_⟩
  · rw [List.append_nil]; exact h.found
  · rw [List.append_nil]; exact h.expansions
  · rw [List.append_nil]; exact h.below
  · rw [List.append_nil]; exact h.within

/-- Before its first round a search has seen nothing. -/
theorem holds_start (limits : Limits) (adjacency : Dict (List String)) (source target : String) :
    Holds limits target (candidates adjacency source target 0) [] {} := by
  refine ⟨rfl, rfl, rfl, ?_, Nat.zero_le _⟩
  rw [Limits.pathCap]
  exact Nat.lt_of_lt_of_le Nat.zero_lt_one (Nat.le_max_right _ _)

/-- The end of a search among all candidates, with the queue at that moment: the paths that avoid the
target have entered it in the order of the list, and the one that is being extended was the last to
leave. -/
def StopsAmong (limits : Limits) (source target : String) (cands : List NamePath) (r : FoundPaths) :
    Prop :=
  ∃ seen p rest left waiting, cands = seen ++ p :: rest ∧
    ([source] :: seen.filter fun p => !arrives target p) = left ++ p.dropLast :: waiting ∧
    Stops limits target seen p waiting r

theorem dropLast_of_mem_extensions {p q : NamePath} (h : p ∈ extensions adjacency q) :
    p.dropLast = q := by
  obtain ⟨c, -, rfl⟩ := List.mem_map.mp h
  exact List.dropLast_concat

/-- An end within the round after `k` calls is an end among the candidates of any later bound. -/
theorem StopsInRound.among {k hops : Nat} {r : FoundPaths}
    (h : StopsInRound limits adjacency target (candidates adjacency source target k) []
      (frontier adjacency source target k) r) :
    StopsAmong limits source target (candidates adjacency source target (k + 1 + hops)) r := by
  obtain ⟨before, q, after, hpaths, done, p, rest, hext, hstop⟩ := h
  rw [List.nil_append] at hstop
  obtain ⟨left, hleft⟩ := exists_append_frontier adjacency source target k
  obtain ⟨later, hlater⟩ := candidates_eq_append adjacency source target (k + 1) hops
  have hq : p.dropLast = q :=
    dropLast_of_mem_extensions (by rw [hext]; exact List.mem_append_right _ List.mem_cons_self)
  refine ⟨_, p, rest ++ (after.flatMap (extensions adjacency) ++ later), left ++ before, _, ?_, ?_, hstop⟩
  · rw [hlater, candidates_succ, level, hpaths, List.flatMap_append, List.flatMap_cons, hext]
    simp only [List.append_assoc, List.cons_append]
  · rw [List.filter_append, ← List.cons_append, hleft, hpaths, hq]
    simp only [List.append_assoc, List.cons_append]

/-- **All rounds go through all candidates in order.** -/
theorem rounds_spec (hops : Nat) :
    ∀ (k : Nat) (s : PathSearch), Holds limits target (candidates adjacency source target k) [] s →
      Ends (Holds limits target (candidates adjacency source target (k + hops)) [])
        (StopsAmong limits source target (candidates adjacency source target (k + hops)))
        (s.rounds limits adjacency target (frontier adjacency source target k) hops) := by
  induction hops with
  | zero =>
    intro k s h
    exact h
  | succ hops ih =>
    intro k s h
    rw [rounds]
    by_cases hempty : frontier adjacency source target k = []
    · rw [if_pos (by rw [hempty]; rfl), candidates_eq_of_frontier_nil hempty]
      exact h
    · rw [if_neg (by simpa using hempty), show k + (hops + 1) = k + 1 + hops from by omega]
      refine (round_spec _ [] s h).bind (fun s' h' => ?_) (fun r hr => hr.among)
      -- what the round has put into the queue is the frontier of the next one
      rw [List.nil_append, ← level] at h'
      rw [h'.queue, ← frontier_succ]
      apply ih (k + 1)
      rw [candidates_succ]
      exact h'.nextRound

end PathSearch

/-! ### The whole search -/

/-- **A search between two names ends in one of three ways**: all candidates have been seen and no limit
was met, or one of the two limits has stopped it at a candidate. -/
theorem simplePaths_outcome {adjacency : Dict (List String)} {source target : String} (limits : Limits)
    (hne : source ≠ target) (hops : Nat) :
    (candidates adjacency source target hops).length ≤ limits.maxExpansions ∧
        ((candidates adjacency source target hops).filter (arrives target)).length < limits.pathCap ∧
        simplePaths limits adjacency source target hops
          = ⟨(candidates adjacency source target hops).filter (arrives target), false⟩ ∨
      PathSearch.StopsAmong limits source target (candidates adjacency source target hops)
        (simplePaths limits adjacency source target hops) := by
  have hstart := PathSearch.holds_start limits adjacency source target
  have hends : PathSearch.Ends _ _ (PathSearch.rounds limits adjacency target {} [[source]] hops) :=
    PathSearch.rounds_spec hops 0 {} hstart
  rw [Nat.zero_add] at hends
  rw [simplePaths, if_neg (by simpa using hne)]
  cases hrun : PathSearch.rounds limits adjacency target {} [[source]] hops with
  | ok s =>
    rw [hrun] at hends
    have hfound := hends.found
    have hbelow := hends.below
    have hwithin := hends.within
    rw [List.append_nil] at hfound hbelow hwithin
    left
    refine ⟨hwithin, hbelow, ?_⟩
    rw [← hfound]
  | error r =>
    rw [hrun] at hends
    right
    exact hends

end CodeAtlas
