import CodeAtlas.Proofs.PathSearch
import Mathlib.Algebra.BigOperators.Group.List.Basic
import Mathlib.Logic.Relation

/-!
# One queue for all rounds

A search for paths goes by rounds, and within a round it extends one path after the other. It can also be run with
one queue, as a loop: the first path leaves the queue, and its extensions enter it at the end. Each turn takes one
path from the queue and may add many, so its length does not show that the loop ends. This file counts the steps that
each path can still lead to, which needs no budget, and says which paths are in the queue on the way.

* `QueueLoop`, `QueueLoop.step?`: the loop, one name at a time;
* `QueueLoop.Change`, `QueueLoop.change_of_step?`: what a step can do to the queue;
* `QueueLoop.load`, `QueueLoop.load_lt_of_step?`: what is left to do, and that every step has less of it;
* `QueueLoop.Sound`, `QueueLoop.sound_of_mayReach`: what holds of all paths in the queue, after each step and in each
  run;
* `QueueLoop.runs_round`, `QueueLoop.runs_rounds`: the loop does what the rounds do;
* `queue_search_ends`: the loop ends with the answer of the search, whatever its budgets are.
-/

namespace CodeAtlas

/-- A search for paths with one queue. -/
inductive QueueLoop where
  /-- The next path is to be taken from the queue. -/
  | turn (s : PathSearch)
  /-- A path is being extended, and some of the names that may follow it are left. -/
  | extending (path : NamePath) (callees : List String) (s : PathSearch)
  /-- The search is over. -/
  | done (answer : FoundPaths)

namespace QueueLoop

variable {limits : Limits} {adjacency : Dict (List String)} {source target : String} {hops : Nat}

/-- How the loop goes on after a part of it. -/
def after : Except FoundPaths PathSearch → QueueLoop
  | .ok s => .turn s
  | .error answer => .done answer

/-- The start of a search. From a name to itself there is nothing to look for. -/
def start (source target : String) : QueueLoop :=
  if source == target then .done ⟨[[source]], false⟩ else .turn { queue := #[[source]] }

/-- One step of the loop, unless it is over. Paths with more than `hops` names are not extended. -/
def step? (limits : Limits) (adjacency : Dict (List String)) (target : String) (hops : Nat) :
    QueueLoop → Option QueueLoop
  | .turn s =>
    match s.queue.toList with
    | [] => some (.done ⟨s.found.toList, false⟩)
    | path :: rest =>
      let s := { s with queue := rest.toArray }
      if hops < path.length then some (.turn s)
      else some (.extending path (nextNames adjacency path) s)
  | .extending _ [] s => some (.turn s)
  | .extending path (callee :: callees) s =>
    match s.extend limits target false path [callee] with
    | .ok s => some (.extending path callees s)
    | .error answer => some (.done answer)
  | .done _ => none

/-- The paths in the queue. -/
def queue : QueueLoop → List NamePath
  | .turn s => s.queue.toList
  | .extending _ _ s => s.queue.toList
  | .done _ => []

/-- The loop goes from one state to another with some budgets. -/
def Runs (limits : Limits) (adjacency : Dict (List String)) (target : String) (hops : Nat) :
    QueueLoop → QueueLoop → Prop :=
  Relation.ReflTransGen fun before after => before.step? limits adjacency target hops = some after

/-- The loop can take a step, if its budgets allow it. -/
def MayStep (adjacency : Dict (List String)) (target : String) (hops : Nat) (before after : QueueLoop) : Prop :=
  ∃ limits, before.step? limits adjacency target hops = some after

/-- The loop can go from one state to another, if its budgets allow it. They may be others at each step. -/
def MayReach (adjacency : Dict (List String)) (target : String) (hops : Nat) : QueueLoop → QueueLoop → Prop :=
  Relation.ReflTransGen (MayStep adjacency target hops)

theorem Runs.mayReach {before after : QueueLoop} (h : Runs limits adjacency target hops before after) :
    MayReach adjacency target hops before after :=
  Relation.ReflTransGen.mono (fun _ _ hstep => ⟨limits, hstep⟩) _ _ h

/-! ### What a step does to the queue -/

/-- What a step can do, apart from the paths found and the number of extensions. -/
inductive Change (adjacency : Dict (List String)) (target : String) (hops : Nat) : QueueLoop → QueueLoop → Prop
  /-- The queue is empty. -/
  | drained (s : PathSearch) (answer : FoundPaths) : Change adjacency target hops (.turn s) (.done answer)
  /-- A budget is reached. -/
  | stopped (path : NamePath) (callees : List String) (s : PathSearch) (answer : FoundPaths) :
      Change adjacency target hops (.extending path callees s) (.done answer)
  /-- The first path is too long to be extended. -/
  | skipped {s s' : PathSearch} {path : NamePath} {rest : List NamePath} (hqueue : s.queue.toList = path :: rest)
      (hqueue' : s'.queue.toList = rest) (hlong : hops < path.length) :
      Change adjacency target hops (.turn s) (.turn s')
  | taken {s s' : PathSearch} {path : NamePath} {rest : List NamePath} (hqueue : s.queue.toList = path :: rest)
      (hqueue' : s'.queue.toList = rest) (hshort : path.length ≤ hops) :
      Change adjacency target hops (.turn s) (.extending path (nextNames adjacency path) s')
  | finished (path : NamePath) (s : PathSearch) : Change adjacency target hops (.extending path [] s) (.turn s)
  /-- The name is on the path or is the target. -/
  | passed {s s' : PathSearch} (path : NamePath) (c : String) (callees : List String) (hqueue : s'.queue = s.queue) :
      Change adjacency target hops (.extending path (c :: callees) s) (.extending path callees s')
  | queued {s s' : PathSearch} {path : NamePath} {c : String} (callees : List String) (hnew : c ∉ path)
      (hne : c ≠ target) (hqueue : s'.queue = s.queue.push (path ++ [c])) :
      Change adjacency target hops (.extending path (c :: callees) s) (.extending path callees s')

/-- One name adds one path to the queue, or none. -/
theorem change_of_extend {s s' : PathSearch} {path : NamePath} {c : String} (callees : List String)
    (h : s.extend limits target false path [c] = .ok s') :
    Change adjacency target hops (.extending path (c :: callees) s) (.extending path callees s') := by
  rw [PathSearch.extend] at h
  dsimp only [PathSearch.extend] at h
  split_ifs at h with hold hspent harr hfull
  · cases h
    exact .passed path c callees rfl
  · cases h
    exact .passed path c callees rfl
  · cases h
    exact .queued callees (by simpa using hold) (by simpa using harr) rfl

theorem change_of_step? {before after : QueueLoop} (h : before.step? limits adjacency target hops = some after) :
    Change adjacency target hops before after := by
  cases before with
  | done answer => cases h
  | turn s =>
    rw [step?] at h
    cases hqueue : s.queue.toList with
    | nil =>
      rw [hqueue] at h
      cases h
      exact .drained s _
    | cons path rest =>
      rw [hqueue] at h
      dsimp only at h
      split_ifs at h with hlong
      · cases h
        exact .skipped hqueue rfl hlong
      · cases h
        exact .taken hqueue rfl (Nat.not_lt.mp hlong)
  | extending path callees s =>
    cases callees with
    | nil =>
      cases h
      exact .finished path s
    | cons c callees =>
      rw [step?] at h
      cases hextend : s.extend limits target false path [c] with
      | error answer =>
        rw [hextend] at h
        cases h
        exact .stopped path (c :: callees) s answer
      | ok s' =>
        rw [hextend] at h
        cases h
        exact change_of_extend callees hextend

/-! ### What is left to do -/

/-- The most steps that a path in the queue can lead to, if it may have `left` names more than it has. -/
def work (adjacency : Dict (List String)) : (left : Nat) → NamePath → Nat
  | 0, _ => 1
  | left + 1, path => 2 + ((nextNames adjacency path).map fun c => 1 + work adjacency left (path ++ [c])).sum

/-- The most steps that the paths in a queue can lead to. -/
def queueWork (adjacency : Dict (List String)) (hops : Nat) (paths : List NamePath) : Nat :=
  (paths.map fun path => work adjacency (hops + 1 - path.length) path).sum

/-- The most steps that the extensions of a path by some names can lead to, with one for each name. -/
def calleeWork (adjacency : Dict (List String)) (hops : Nat) (path : NamePath) (callees : List String) : Nat :=
  (callees.map fun c => 1 + work adjacency (hops - path.length) (path ++ [c])).sum

/-- The most steps that are left. -/
def load (adjacency : Dict (List String)) (hops : Nat) : QueueLoop → Nat
  | .turn s => 1 + queueWork adjacency hops s.queue.toList
  | .extending path callees s =>
    2 + calleeWork adjacency hops path callees + queueWork adjacency hops s.queue.toList
  | .done _ => 0

theorem queueWork_cons (path : NamePath) (rest : List NamePath) :
    queueWork adjacency hops (path :: rest)
      = work adjacency (hops + 1 - path.length) path + queueWork adjacency hops rest := by
  rw [queueWork, List.map_cons, List.sum_cons, queueWork]

/-- A path that is too long is only taken from the queue. -/
theorem work_of_long {path : NamePath} (h : hops < path.length) :
    work adjacency (hops + 1 - path.length) path = 1 := by
  rw [show hops + 1 - path.length = 0 from by omega, work]

theorem work_of_short {path : NamePath} (h : path.length ≤ hops) :
    work adjacency (hops + 1 - path.length) path = 2 + calleeWork adjacency hops path (nextNames adjacency path) := by
  rw [show hops + 1 - path.length = hops - path.length + 1 from by omega, work, calleeWork]

theorem calleeWork_cons (path : NamePath) (c : String) (callees : List String) :
    calleeWork adjacency hops path (c :: callees)
      = 1 + work adjacency (hops - path.length) (path ++ [c]) + calleeWork adjacency hops path callees := by
  rw [calleeWork, List.map_cons, List.sum_cons, calleeWork]

theorem queueWork_concat (paths : List NamePath) (path : NamePath) (c : String) :
    queueWork adjacency hops (paths ++ [path ++ [c]])
      = queueWork adjacency hops paths + work adjacency (hops - path.length) (path ++ [c]) := by
  rw [queueWork, List.map_append, List.sum_append, List.map_singleton, List.sum_singleton, ← queueWork,
    List.length_append, List.length_singleton, Nat.add_sub_add_right]

/-- **After every step less is left to do**, from any state and with any budgets. -/
theorem load_lt_of_step? {before after : QueueLoop} (h : before.step? limits adjacency target hops = some after) :
    after.load adjacency hops < before.load adjacency hops := by
  cases change_of_step? h with
  | drained s answer => rw [load, load]; omega
  | stopped path callees s answer => rw [load, load]; omega
  | skipped hqueue hqueue' hlong =>
    rw [load, load, hqueue, hqueue', queueWork_cons, work_of_long hlong]
    omega
  | taken hqueue hqueue' hshort =>
    rw [load, load, hqueue, hqueue', queueWork_cons, work_of_short hshort]
    omega
  | finished path s => rw [load, load]; omega
  | passed path c callees hqueue =>
    rw [load, load, calleeWork_cons, hqueue]
    omega
  | queued callees hnew hne hqueue =>
    -- the work of the new path was counted with its last name
    rw [load, load, calleeWork_cons, hqueue, Array.toList_push, queueWork_concat]
    omega

/-! ### What the queue holds -/

/-- A path that may be in the queue: a chain of calls on which no name repeats, which starts at the source, avoids the
target and has at most one name more than there are hops. -/
structure IsQueued (adjacency : Dict (List String)) (source target : String) (hops : Nat) (path : NamePath) :
    Prop where
  isSimple : IsSimplePath (Follows adjacency) source path
  avoids : target ∉ path
  short : path.length ≤ hops + 1

/-- All paths in the queue are such paths. So is a path that is being extended, and the names left for it may follow
it. -/
def Sound (adjacency : Dict (List String)) (source target : String) (hops : Nat) : QueueLoop → Prop
  | .turn s => ∀ p ∈ s.queue.toList, IsQueued adjacency source target hops p
  | .extending path callees s =>
    IsQueued adjacency source target hops path ∧ path.length ≤ hops ∧ callees ⊆ nextNames adjacency path ∧
      ∀ p ∈ s.queue.toList, IsQueued adjacency source target hops p
  | .done _ => True

theorem Sound.of_mem_queue {state : QueueLoop} (h : Sound adjacency source target hops state) :
    ∀ p ∈ state.queue, IsQueued adjacency source target hops p := by
  cases state with
  | turn s => exact h
  | extending path callees s => exact h.2.2.2
  | done answer => simp [queue]

theorem sound_start (adjacency : Dict (List String)) (source target : String) (hops : Nat) :
    Sound adjacency source target hops (start source target) := by
  rw [start]
  split_ifs with hself
  · trivial
  · intro p hp
    obtain rfl : p = [source] := by simpa using hp
    refine ⟨IsSimplePath.singleton, ?_, by simp⟩
    rw [List.mem_singleton]
    rintro rfl
    simp at hself

/-- A path in the queue stays one when a name is added that may follow, is new and is not the target. -/
theorem IsQueued.concat {path : NamePath} {c : String} (h : IsQueued adjacency source target hops path)
    (hshort : path.length ≤ hops) (hnext : c ∈ nextNames adjacency path) (hnew : c ∉ path) (hne : c ≠ target) :
    IsQueued adjacency source target hops (path ++ [c]) := by
  have hext : path ++ [c] ∈ extensions adjacency path := by
    rw [extensions, List.mem_map]
    exact ⟨c, List.mem_filter.mpr ⟨hnext, by simpa using hnew⟩, rfl⟩
  obtain ⟨-, -, hpath⟩ := (mem_extensions h.isSimple).mp hext
  refine ⟨hpath, ?_, by simpa using hshort⟩
  rw [List.mem_append, List.mem_singleton, not_or]
  exact ⟨h.avoids, hne.symm⟩

/-- **Every step keeps the queue sound.** -/
theorem Sound.step {before after : QueueLoop} (h : Sound adjacency source target hops before)
    (hstep : before.step? limits adjacency target hops = some after) : Sound adjacency source target hops after := by
  cases change_of_step? hstep with
  | drained s answer => trivial
  | stopped path callees s answer => trivial
  | skipped hqueue hqueue' hlong =>
    rw [Sound, hqueue] at h
    rw [Sound, hqueue']
    exact fun p hp => h p (List.mem_cons_of_mem _ hp)
  | taken hqueue hqueue' hshort =>
    rw [Sound, hqueue] at h
    rw [Sound, hqueue']
    exact ⟨h _ List.mem_cons_self, hshort, List.Subset.refl _, fun p hp => h p (List.mem_cons_of_mem _ hp)⟩
  | finished path s => exact h.2.2.2
  | passed path c callees hqueue =>
    obtain ⟨hpath, hshort, hcallees, hrest⟩ := h
    rw [Sound, hqueue]
    exact ⟨hpath, hshort, List.subset_of_cons_subset hcallees, hrest⟩
  | queued callees hnew hne hqueue =>
    obtain ⟨hpath, hshort, hcallees, hrest⟩ := h
    refine ⟨hpath, hshort, List.subset_of_cons_subset hcallees, ?_⟩
    intro p hp
    rw [hqueue, Array.toList_push, List.mem_append, List.mem_singleton] at hp
    rcases hp with hp | rfl
    · exact hrest p hp
    · exact hpath.concat hshort (hcallees List.mem_cons_self) hnew hne

/-- **In every run the queue is sound.** -/
theorem sound_of_mayReach {state : QueueLoop} (h : MayReach adjacency target hops (start source target) state) :
    Sound adjacency source target hops state := by
  induction h with
  | refl => exact sound_start adjacency source target hops
  | tail _ hstep ih =>
    obtain ⟨limits, hstep⟩ := hstep
    exact ih.step hstep

/-! ### The loop and the rounds -/

/-- A search with some paths in front of its queue. -/
def behind (others : List NamePath) (s : PathSearch) : PathSearch :=
  { s with queue := others.toArray ++ s.queue }

theorem behind_nil (s : PathSearch) : behind [] s = s := by
  simp [behind]

/-- Names are looked at one after the other. -/
theorem extend_cons (waiting : Bool) (path : NamePath) (s : PathSearch) (c : String) (callees : List String) :
    s.extend limits target waiting path (c :: callees)
      = s.extend limits target waiting path [c] >>= fun s => s.extend limits target waiting path callees := by
  rw [PathSearch.extend, PathSearch.extend]
  dsimp only [PathSearch.extend]
  split_ifs <;> rfl

/-- It makes no difference whether the other paths of the round are in the queue or only known to wait. -/
theorem extend_behind (others : List NamePath) (path : NamePath) (callees : List String) :
    ∀ s : PathSearch, (behind others s).extend limits target false path callees
      = (s.extend limits target (!others.isEmpty) path callees).map (behind others) := by
  induction callees with
  | nil => intro s; rfl
  | cons c callees ih =>
    intro s
    have hempty : (!(behind others s).queue.isEmpty) = (!others.isEmpty || !s.queue.isEmpty) := by
      cases others with
      | nil => simp [behind]
      | cons q others => simp [behind]
    have hpush : (behind others s).queue.push (path ++ [c])
        = (behind others { s with queue := s.queue.push (path ++ [c]) }).queue := by
      simp [behind]
    rw [PathSearch.extend, PathSearch.extend, apply_ite (Except.map (behind others)),
      apply_ite (Except.map (behind others))]
    dsimp only
    rw [apply_ite (Except.map (behind others)), apply_ite (Except.map (behind others)), Bool.false_or, hempty, hpush]
    refine if_congr Iff.rfl (ih s) (if_congr Iff.rfl rfl (if_congr Iff.rfl (if_congr Iff.rfl rfl ?_) ?_))
    · exact ih { s with expansions := s.expansions + 1, found := s.found.push (path ++ [c]) }
    · exact ih { s with expansions := s.expansions + 1, queue := s.queue.push (path ++ [c]) }

/-- Extending a path name by name comes to what `PathSearch.extend` comes to. -/
theorem runs_extend (path : NamePath) (callees : List String) :
    ∀ s : PathSearch, Runs limits adjacency target hops (.extending path callees s)
      (after (s.extend limits target false path callees)) := by
  induction callees with
  | nil => intro s; exact .single rfl
  | cons c callees ih =>
    intro s
    rw [extend_cons]
    cases hfirst : s.extend limits target false path [c] with
    | error answer => exact .single (by rw [step?, hfirst]; rfl)
    | ok s' => exact .head (by rw [step?, hfirst]) (ih s')

/-- The first path leaves the queue. -/
theorem step?_turn_behind (path : NamePath) (rest : List NamePath) (s : PathSearch) :
    (turn (behind (path :: rest) s)).step? limits adjacency target hops
      = if hops < path.length then some (.turn (behind rest s))
        else some (.extending path (nextNames adjacency path) (behind rest s)) := by
  have hqueue : (behind (path :: rest) s).queue.toList = path :: (behind rest s).queue.toList := by simp [behind]
  rw [step?, hqueue]
  rfl

/-- Paths that may be extended are extended as in a round. -/
theorem runs_round (paths : List NamePath) (hshort : ∀ p ∈ paths, p.length ≤ hops) :
    ∀ s : PathSearch, Runs limits adjacency target hops (.turn (behind paths s))
      (after (s.round limits adjacency target paths)) := by
  induction paths with
  | nil => intro s; rw [behind_nil]; exact .refl
  | cons path rest ih =>
    intro s
    have hpath := hshort path List.mem_cons_self
    have htake : (turn (behind (path :: rest) s)).step? limits adjacency target hops
        = some (.extending path (nextNames adjacency path) (behind rest s)) := by
      rw [step?_turn_behind, if_neg (by omega)]
    refine .head htake ?_
    have hextend : Runs limits adjacency target hops _ _ :=
      runs_extend path (nextNames adjacency path) (behind rest s)
    rw [extend_behind] at hextend
    rw [PathSearch.round]
    change Runs _ _ _ _ _ (after (s.extend limits target (!rest.isEmpty) path (nextNames adjacency path) >>= _))
    cases hrun : s.extend limits target (!rest.isEmpty) path (nextNames adjacency path) with
    | error answer =>
      rw [hrun] at hextend
      exact hextend
    | ok s' =>
      rw [hrun] at hextend
      exact hextend.trans (ih (fun p hp => hshort p (List.mem_cons_of_mem path hp)) s')

/-- Paths that may not be extended only leave the queue. -/
theorem runs_skip (paths : List NamePath) (hlong : ∀ p ∈ paths, hops < p.length) (s : PathSearch) :
    Runs limits adjacency target hops (.turn (behind paths s)) (.turn s) := by
  induction paths with
  | nil => rw [behind_nil]; exact .refl
  | cons path rest ih =>
    refine .head ?_ (ih fun p hp => hlong p (List.mem_cons_of_mem path hp))
    rw [step?_turn_behind, if_pos (hlong path List.mem_cons_self)]

/-- With an empty queue the loop ends. -/
theorem runs_drained {s : PathSearch} (h : s.queue.toList = []) :
    Runs limits adjacency target hops (.turn s) (.done ⟨s.found.toList, false⟩) :=
  .single (by rw [step?, h])

/-- What one round does to a search that stands before it: the loop comes to the next round, or to the end. -/
theorem runs_frontier {k : Nat} {s : PathSearch} (hne : source ≠ target) (hk : k < hops)
    (h : PathSearch.Holds limits target (candidates adjacency source target k) [] s) :
    (∃ s', s.round limits adjacency target (frontier adjacency source target k) = .ok s' ∧
        s'.queue.toList = frontier adjacency source target (k + 1) ∧
        PathSearch.Holds limits target (candidates adjacency source target (k + 1)) [] { s' with queue := #[] } ∧
        Runs limits adjacency target hops (.turn (behind (frontier adjacency source target k) s))
          (.turn (behind (frontier adjacency source target (k + 1)) { s' with queue := #[] }))) ∨
      ∃ answer, s.round limits adjacency target (frontier adjacency source target k) = .error answer ∧
        PathSearch.StopsAmong limits source target (candidates adjacency source target hops) answer ∧
        Runs limits adjacency target hops (.turn (behind (frontier adjacency source target k) s)) (.done answer) := by
  have hshort : ∀ p ∈ frontier adjacency source target k, p.length ≤ hops := by
    intro p hp
    obtain ⟨-, hlength, -⟩ := (mem_frontier hne k p).mp hp
    omega
  have hround : PathSearch.Ends _ _ (s.round limits adjacency target (frontier adjacency source target k)) :=
    PathSearch.round_spec _ [] s h
  have hrun : Runs limits adjacency target hops _ _ := runs_round _ hshort s
  cases hresult : s.round limits adjacency target (frontier adjacency source target k) with
  | ok s' =>
    rw [hresult] at hround hrun
    have hholds : PathSearch.Holds limits target (candidates adjacency source target k)
        (level adjacency source target k) s' := hround
    have hqueue : s'.queue.toList = frontier adjacency source target (k + 1) := by
      rw [hholds.queue, ← frontier_succ]
    refine .inl ⟨s', rfl, hqueue, ?_, ?_⟩
    · rw [candidates_succ]
      exact hholds.nextRound
    · have hbehind : behind (frontier adjacency source target (k + 1)) { s' with queue := #[] } = s' := by
        rw [← hqueue]
        simp [behind]
      rw [hbehind]
      exact hrun
  | error answer =>
    rw [hresult] at hround hrun
    refine .inr ⟨answer, rfl, ?_, hrun⟩
    rw [show hops = k + 1 + (hops - (k + 1)) from by omega]
    exact PathSearch.StopsInRound.among hround

/-- All rounds, one after the other, are one run of the loop. -/
theorem runs_rounds (hne : source ≠ target) (left : Nat) :
    ∀ (k : Nat) (s : PathSearch), k + left = hops →
      PathSearch.Holds limits target (candidates adjacency source target k) [] s →
      Runs limits adjacency target hops (.turn (behind (frontier adjacency source target k) s))
        (.done (match s.rounds limits adjacency target (frontier adjacency source target k) left with
          | .ok s => ⟨s.found.toList, false⟩
          | .error answer => answer)) := by
  induction left with
  | zero =>
    intro k s hk h
    -- the paths that are left have as many names as they may
    have hlong : ∀ p ∈ frontier adjacency source target k, hops < p.length := by
      intro p hp
      obtain ⟨-, hlength, -⟩ := (mem_frontier hne k p).mp hp
      omega
    exact (runs_skip _ hlong s).trans (runs_drained h.queue)
  | succ left ih =>
    intro k s hk h
    rw [PathSearch.rounds]
    by_cases hempty : frontier adjacency source target k = []
    · rw [if_pos (by rw [hempty]; rfl), hempty, behind_nil]
      exact runs_drained h.queue
    · rw [if_neg (by simpa using hempty)]
      have hbound : k < hops := by omega
      rcases runs_frontier hne hbound h with ⟨s', hround, hqueue, hholds, hrun⟩ | ⟨answer, hround, -, hrun⟩
      · rw [hround]
        refine hrun.trans ?_
        have hrest := ih (k + 1) _ (by omega) hholds
        rw [← hqueue] at hrest ⊢
        exact hrest
      · rw [hround]
        exact hrun

theorem start_of_ne (hne : source ≠ target) : start source target = .turn (behind [[source]] {}) := by
  rw [start, if_neg (by simpa using hne)]
  rfl

/-- **The loop ends with the answer of the search.** -/
theorem runs_simplePaths (limits : Limits) (adjacency : Dict (List String)) (source target : String) (hops : Nat) :
    Runs limits adjacency target hops (start source target)
      (.done (simplePaths limits adjacency source target hops)) := by
  by_cases hself : source = target
  · rw [start, simplePaths, if_pos (by simpa using hself), if_pos (by simpa using hself)]
    exact .refl
  · rw [start_of_ne hself, simplePaths, if_neg (by simpa using hself)]
    exact runs_rounds hself hops 0 {} (Nat.zero_add hops) (PathSearch.holds_start limits adjacency source target)

/-! ### Budgets that are not reached -/

/-- The budgets are greater than the number of paths that a search can come to. -/
def Ample (limits : Limits) (cands : List NamePath) : Prop :=
  cands.length < limits.maxPaths ∧ cands.length < limits.maxExpansions

theorem exists_ample (cands : List NamePath) : ∃ limits, Ample limits cands :=
  ⟨{ maxPaths := cands.length + 1, maxExpansions := cands.length + 1 }, Nat.lt_succ_self _, Nat.lt_succ_self _⟩

/-- Such budgets do not stop a search. -/
theorem not_stopsAmong_of_ample {cands : List NamePath} {answer : FoundPaths} (hample : Ample limits cands) :
    ¬ PathSearch.StopsAmong limits source target cands answer := by
  intro h
  obtain ⟨seen, p, rest, left, waiting, rfl, -, hstop⟩ := h
  obtain ⟨hpaths, hexpansions⟩ := hample
  rw [List.length_append, List.length_cons] at hpaths hexpansions
  have hfilter := List.length_filter_le (arrives target) seen
  cases hstop with
  | spent hspent => omega
  | full harrives hwithin hfull =>
    rw [Limits.pathCap] at hfull
    omega

/-- A search with such budgets comes to every round. -/
theorem runs_to_frontier (hne : source ≠ target) (hample : Ample limits (candidates adjacency source target hops))
    (k : Nat) : k ≤ hops → ∃ s, PathSearch.Holds limits target (candidates adjacency source target k) [] s ∧
      Runs limits adjacency target hops (start source target)
        (.turn (behind (frontier adjacency source target k) s)) := by
  induction k with
  | zero =>
    intro _
    rw [start_of_ne hne]
    exact ⟨{}, PathSearch.holds_start limits adjacency source target, .refl⟩
  | succ k ih =>
    intro hk
    obtain ⟨s, hholds, hrun⟩ := ih (by omega)
    rcases runs_frontier hne hk hholds with ⟨s', -, -, hholds', hrun'⟩ | ⟨answer, -, hstop, -⟩
    · exact ⟨_, hholds', hrun.trans hrun'⟩
    · exact absurd hstop (not_stopsAmong_of_ample hample)

/-- Every path that may be in the queue is there at some time, if no budget stops the search. -/
theorem IsQueued.exists_mayReach {path : NamePath} (h : IsQueued adjacency source target hops path) :
    ∃ state, MayReach adjacency target hops (start source target) state ∧ path ∈ state.queue := by
  have hne : source ≠ target := by
    rintro rfl
    exact h.avoids (List.mem_of_head? h.isSimple.starts)
  have hlength := List.length_pos_iff.mpr h.isSimple.ne_nil
  have hshort := h.short
  obtain ⟨limits, hample⟩ := exists_ample (candidates adjacency source target hops)
  obtain ⟨s, -, hrun⟩ := runs_to_frontier hne hample (path.length - 1) (by omega)
  refine ⟨_, hrun.mayReach, ?_⟩
  have hmem : path ∈ frontier adjacency source target (path.length - 1) :=
    (mem_frontier hne _ path).mpr ⟨h.isSimple, by omega, h.avoids⟩
  simp [queue, behind, hmem]

/-- With budgets that are large enough, the answer does not depend on them. -/
theorem exists_simplePaths_eq (adjacency : Dict (List String)) (source target : String) (hops : Nat) :
    ∃ enough found, ∀ limits : Limits, enough ≤ limits.maxPaths → enough ≤ limits.maxExpansions →
      simplePaths limits adjacency source target hops = ⟨found, false⟩ := by
  by_cases hself : source = target
  · refine ⟨0, [[source]], fun limits _ _ => ?_⟩
    rw [simplePaths, if_pos (by simpa using hself)]
  · refine ⟨(candidates adjacency source target hops).length + 1,
      (candidates adjacency source target hops).filter (arrives target), ?_⟩
    intro limits hpaths hexpansions
    rcases simplePaths_outcome limits hself hops with ⟨-, -, heq⟩ | hstop
    · exact heq
    · exact absurd hstop (not_stopsAmong_of_ample ⟨hpaths, hexpansions⟩)

end QueueLoop

/-- **A search for paths ends without its budgets.** For every adjacency of names, with or without circles, every
source and target and every number of hops, the loop over one queue

* has no endless run, from any state and even if the budgets are raised at each step;
* ends with the answer of the search, for all budgets;
* is not stopped by budgets that are large enough, and then its answer does not depend on them;
* has exactly those chains of calls in its queue, at one time or another, on which no name repeats and which start at
  the source, avoid the target and have at most one name more than there are hops. -/
theorem queue_search_ends (adjacency : Dict (List String)) (source target : String) (hops : Nat) :
    (WellFounded fun after before => QueueLoop.MayStep adjacency target hops before after) ∧
      (∀ limits, QueueLoop.Runs limits adjacency target hops (.start source target)
        (.done (simplePaths limits adjacency source target hops))) ∧
      (∃ enough found, ∀ limits : Limits, enough ≤ limits.maxPaths → enough ≤ limits.maxExpansions →
        simplePaths limits adjacency source target hops = ⟨found, false⟩) ∧
      ∀ path, (∃ state, QueueLoop.MayReach adjacency target hops (.start source target) state ∧ path ∈ state.queue)
        ↔ QueueLoop.IsQueued adjacency source target hops path := by
  refine ⟨?_, fun limits => QueueLoop.runs_simplePaths limits adjacency source target hops,
    QueueLoop.exists_simplePaths_eq adjacency source target hops, fun path => ⟨?_, fun h => h.exists_mayReach⟩⟩
  · refine Subrelation.wf ?_ (measure (QueueLoop.load adjacency hops)).wf
    intro after before h
    obtain ⟨limits, hstep⟩ := h
    exact QueueLoop.load_lt_of_step? hstep
  · intro h
    obtain ⟨state, hreach, hmem⟩ := h
    exact (QueueLoop.sound_of_mayReach hreach).of_mem_queue path hmem

/-- Two names that call each other, and a third one that the second calls. -/
def circle : Dict (List String) :=
  (∅ : Dict (List String)).insert "a" ["b"] |>.insert "b" ["a", "c"]

/-- On the circle the search comes to its end with one path, under the budgets of a call graph. The way to the second
name has been in the queue, and the way back has not. -/
theorem circle_search_ends :
    QueueLoop.Runs {} circle "c" 10 (.start "a" "c") (.done ⟨[["a", "b", "c"]], false⟩) ∧
      (∃ state, QueueLoop.MayReach circle "c" 10 (.start "a" "c") state ∧ ["a", "b"] ∈ state.queue) ∧
      ¬ ∃ state, QueueLoop.MayReach circle "c" 10 (.start "a" "c") state ∧ ["a", "b", "a"] ∈ state.queue := by
  obtain ⟨-, hends, -, hqueue⟩ := queue_search_ends circle "a" "c" 10
  have hanswer : simplePaths {} circle "a" "c" 10 = ⟨[["a", "b", "c"]], false⟩ := by decide +kernel
  have hnames : circle.getD "a" [] = ["b"] := by decide +kernel
  refine ⟨?_, (hqueue _).mpr ⟨⟨rfl, ?_, by decide⟩, by decide, by decide⟩, ?_⟩
  · rw [← hanswer]
    exact hends {}
  · simp [Follows, hnames]
  · intro h
    exact absurd ((hqueue _).mp h).isSimple.simple (by decide)

end CodeAtlas
