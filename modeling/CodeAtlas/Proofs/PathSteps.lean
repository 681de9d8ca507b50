import CodeAtlas.Proofs.TableGrowth

/-!
# The symbols that stand for a path

A path is found as a chain of names, and then each name gets a symbol: one that the symbol before it calls, and of
those the first that calls the next name. So the choice looks one name ahead and is never taken back. This file
says when the chosen symbols call each other along the whole path.

* `CallGraph.CallChain`: symbols that call each other along some names;
* `CallGraph.picksAfter`: the chosen symbols by their positions;
* `CallGraph.BlindAlley`: the choice comes to a symbol from which the path does not go on;
* `CallGraph.callChain_picksAfter_iff`: the choice is a chain of calls unless it comes to a blind alley;
* `CallGraph.path_steps_follow_calls_iff`: so a chain of calls is shown if there is one and it is not missed.
-/

namespace CodeAtlas

namespace CallGraph

variable (g : CallGraph)

/-! ### Chains of calls -/

/-- The symbol at a position has an edge to a name. -/
def HasEdgeTo (i : Nat) (name : String) : Prop :=
  ∃ edge ∈ g.edgesAt i, edge.callee = name

/-- One occurrence for each name of a path, and each has an edge to the next name which reaches the next
occurrence. -/
inductive CallChain : NamePath → List Nat → Prop
  | last {name : String} {i : Nat} (hi : i ∈ g.occurrencesOf name) : CallChain [name] [i]
  | call {name next : String} {rest : NamePath} {i j : Nat} {others : List Nat}
      (hi : i ∈ g.occurrencesOf name) (hedge : g.HasEdgeTo i next) (hj : j ∈ g.reached i next)
      (hrest : CallChain (next :: rest) (j :: others)) :
      CallChain (name :: next :: rest) (i :: j :: others)

/-- The symbols of some steps are a chain of calls along their names. -/
def StepsFollow (steps : List PathStep) : Prop :=
  ∃ positions, steps.map (fun step => g.table.positionOf? step.symbol) = positions.map some ∧
    g.CallChain (steps.map PathStep.name) positions

/-- The first position of a list at which a name is called. -/
def FirstCalling (candidates : List Nat) (name : String) (i : Nat) : Prop :=
  ∃ before after, candidates = before ++ i :: after ∧ g.HasEdgeTo i name ∧ ∀ j ∈ before, ¬ g.HasEdgeTo j name

/-- Along a path, always the first of the candidates that calls the next name is taken, and at some name there is
none. -/
inductive BlindAlley : List Nat → NamePath → Prop
  | here {candidates : List Nat} {name next : String} {rest : NamePath}
      (hnone : ∀ i ∈ candidates, ¬ g.HasEdgeTo i next) : BlindAlley candidates (name :: next :: rest)
  | later {candidates : List Nat} {name next : String} {rest : NamePath} {i : Nat}
      (hfirst : g.FirstCalling candidates next i) (hrest : BlindAlley (g.reached i next) (next :: rest)) :
      BlindAlley candidates (name :: next :: rest)

/-- On a path, all occurrences of a name that call the next one reach the same occurrences of it. The last call of
the path does not matter. -/
def ReachesAlike (path : NamePath) : Prop :=
  ∀ before a b c after, path = before ++ a :: b :: c :: after →
    ∀ i ∈ g.occurrencesOf a, ∀ j ∈ g.occurrencesOf a, g.HasEdgeTo i b → g.HasEdgeTo j b →
      g.reached i b = g.reached j b

variable {g}

theorem calls_iff {i : Nat} {name : String} : g.calls i name = true ↔ g.HasEdgeTo i name := by
  simp [calls, HasEdgeTo]

theorem mem_occurrencesOf {i : Nat} {name : String} :
    i ∈ g.occurrencesOf name ↔ ∃ s, g.table.symbols[i]? = some s ∧ s.name = name := by
  rw [show g.occurrencesOf name = g.table.positions name from (g.table.positions_eq_filter_range name).symm]
  exact g.table.mem_positions

theorem occurrencesOf_of_mem_reached {caller i : Nat} {name : String} (h : i ∈ g.reached caller name) :
    i ∈ g.occurrencesOf name := by
  rw [← resolve_eq_reached] at h
  exact mem_occurrencesOf.mpr (g.name_of_mem_resolve h)

/-- The first candidate that calls a name, as the search for it finds it. -/
theorem firstCalling_iff {candidates : List Nat} {name : String} {i : Nat} :
    g.FirstCalling candidates name i ↔ candidates.find? (fun i => g.calls i name) = some i := by
  rw [List.find?_eq_some_iff_append, FirstCalling]
  constructor
  · intro h
    obtain ⟨before, after, hsplit, hcalls, hbefore⟩ := h
    refine ⟨calls_iff.mpr hcalls, before, after, hsplit, fun j hj => ?_⟩
    simpa [← calls_iff] using hbefore j hj
  · intro h
    obtain ⟨hcalls, before, after, hsplit, hbefore⟩ := h
    refine ⟨before, after, hsplit, calls_iff.mp hcalls, fun j hj => ?_⟩
    simpa [← calls_iff] using hbefore j hj

/-! ### The choice -/

variable (g) in
/-- The chosen positions, for names that follow a chosen one. -/
def picksAfter (previous : Option Nat) : NamePath → List Nat
  | [] => []
  | name :: rest =>
    match g.choice previous name rest with
    | none => []
    | some i => i :: picksAfter (some i) rest

/-- The steps of a path are its names with the chosen symbols. -/
theorem representativesAfter_eq_picks (names : NamePath) :
    ∀ previous, g.representativesAfter previous names
      = List.zipWith (fun name i => ⟨name, (g.table.symbols[i]?.getD default).id⟩) names
          (g.picksAfter previous names) := by
  induction names with
  | nil => intro previous; rfl
  | cons name rest ih =>
    intro previous
    rw [representativesAfter_cons, picksAfter]
    cases hchoice : g.choice previous name rest with
    | none => rfl
    | some i =>
      dsimp only
      rw [ih, List.zipWith_cons_cons]

theorem mem_choices_of_choice {previous : Option Nat} {name : String} {rest : NamePath} {i : Nat}
    (h : g.choice previous name rest = some i) : i ∈ g.choices previous name := by
  rw [choice, Option.or_eq_some_iff] at h
  rcases h with h | ⟨-, h⟩
  · exact List.mem_of_find?_eq_some h
  · exact List.mem_of_head? h

/-- All candidates for a name are occurrences of it. -/
theorem mem_occurrencesOf_of_mem_choices {previous : Option Nat} {name : String} {i : Nat}
    (h : i ∈ g.choices previous name) : i ∈ g.occurrencesOf name := by
  have hall : i ∈ g.table.positions name → i ∈ g.occurrencesOf name :=
    fun h => mem_occurrencesOf.mpr (g.table.mem_positions.mp h)
  cases previous with
  | none => exact hall h
  | some caller =>
    rw [choices] at h
    split at h
    · exact mem_occurrencesOf.mpr (g.name_of_mem_resolve h)
    · exact hall h

/-- A known name has a pick, which is one of its candidates. -/
theorem exists_picksAfter {name : String} (h : g.table.containsName name = true) (previous : Option Nat)
    (rest : NamePath) :
    ∃ i ∈ g.choices previous name, g.choice previous name rest = some i ∧
      g.picksAfter previous (name :: rest) = i :: g.picksAfter (some i) rest := by
  obtain ⟨i, hi⟩ := g.exists_choice h previous rest
  refine ⟨i, mem_choices_of_choice hi, hi, ?_⟩
  rw [picksAfter, hi]

/-- Behind a caller, the candidates are those that the call reaches. -/
theorem choices_of_hasEdgeTo {i : Nat} {name : String} (h : g.HasEdgeTo i name) :
    g.choices (some i) name = g.reached i name := by
  rw [choices, if_pos (calls_iff.mpr h), resolve_eq_reached]

/-- Past the first candidate that calls the next name, a blind alley is one of the path behind it. -/
theorem blindAlley_iff_of_firstCalling {candidates : List Nat} {name next : String} {rest : NamePath} {i : Nat}
    (h : g.FirstCalling candidates next i) :
    g.BlindAlley candidates (name :: next :: rest) ↔ g.BlindAlley (g.reached i next) (next :: rest) := by
  constructor
  · intro halley
    cases halley with
    | here hnone =>
      obtain ⟨before, after, hsplit, hcalls, -⟩ := h
      exact absurd hcalls (hnone i (by rw [hsplit]; simp))
    | later hfirst hrest =>
      rw [firstCalling_iff] at h hfirst
      cases h.symm.trans hfirst
      exact hrest
  · exact fun hrest => .later h hrest

/-- **The choice is a chain of calls exactly if it comes to no blind alley.** One step takes the first candidate that
calls the next name, or finds that there is none. -/
theorem callChain_picksAfter_iff (rest : NamePath) :
    ∀ (name : String) (previous : Option Nat), (∀ n ∈ name :: rest, g.table.containsName n = true) →
      (g.CallChain (name :: rest) (g.picksAfter previous (name :: rest))
        ↔ ¬ g.BlindAlley (g.choices previous name) (name :: rest)) := by
  induction rest with
  | nil =>
    intro name previous hknown
    obtain ⟨i, hi, -, hpicks⟩ := exists_picksAfter (hknown name List.mem_cons_self) previous []
    rw [hpicks]
    refine ⟨fun _ halley => ?_, fun _ => .last (mem_occurrencesOf_of_mem_choices hi)⟩
    cases halley
  | cons next rest ih =>
    intro name previous hknown
    obtain ⟨i, hi, hchoice, hpicks⟩ := exists_picksAfter (hknown name List.mem_cons_self) previous (next :: rest)
    rw [hpicks]
    cases hfind : (g.choices previous name).find? (fun i => g.calls i next) with
    | none =>
      -- whatever is chosen does not call the next name
      have hnone : ∀ j ∈ g.choices previous name, ¬ g.HasEdgeTo j next := by
        intro j hj hedge
        exact List.find?_eq_none.mp hfind j hj (calls_iff.mpr hedge)
      refine ⟨fun hchain => ?_, fun hno => absurd (.here hnone) hno⟩
      generalize g.picksAfter (some i) (next :: rest) = picks at hchain
      cases hchain with
      | call _ hedge => exact absurd hedge (hnone i hi)
    | some j =>
      obtain rfl : j = i := by
        rw [choice, show (fun i => (next :: rest).head?.any (g.calls i)) = fun i => g.calls i next from rfl,
          hfind] at hchoice
        exact Option.some.inj hchoice
      have hfirst := firstCalling_iff.mpr hfind
      have hedge : g.HasEdgeTo j next := by
        obtain ⟨-, -, -, hedge, -⟩ := hfirst
        exact hedge
      have hknown' : ∀ n ∈ next :: rest, g.table.containsName n = true :=
        fun n hn => hknown n (List.mem_cons_of_mem name hn)
      have hreached := choices_of_hasEdgeTo hedge
      rw [blindAlley_iff_of_firstCalling hfirst, ← hreached, ← ih next (some j) hknown']
      obtain ⟨k, hk, -, hrest⟩ := exists_picksAfter (hknown' next List.mem_cons_self) (some j) rest
      rw [hreached] at hk
      rw [hrest]
      constructor
      · intro hchain
        cases hchain with
        | call _ _ _ hchain => exact hchain
      · exact fun hchain => .call (mem_occurrencesOf_of_mem_choices hi) hedge hk hchain

/-! ### Where no blind alley can be -/

theorem CallChain.head_mem {name : String} {rest : NamePath} {positions : List Nat}
    (h : g.CallChain (name :: rest) positions) : ∃ i others, positions = i :: others ∧ i ∈ g.occurrencesOf name := by
  cases h with
  | last hi => exact ⟨_, [], rfl, hi⟩
  | call hi => exact ⟨_, _, rfl, hi⟩

/-- Where callers reach alike, the choice cannot miss a chain of calls that starts among its candidates. -/
theorem CallChain.not_blindAlley {path : NamePath} {positions : List Nat} (h : g.CallChain path positions) :
    ∀ {candidates : List Nat}, g.ReachesAlike path →
      (∀ name, path.head? = some name → ∀ i ∈ candidates, i ∈ g.occurrencesOf name) →
      (∀ i, positions.head? = some i → i ∈ candidates) → ¬ g.BlindAlley candidates path := by
  induction h with
  | last hi =>
    intro candidates _ _ _ halley
    cases halley
  | @call name next rest i j others hi hedge hj hrest ih =>
    intro candidates halike hoccur hstart halley
    cases halley with
    | here hnone => exact hnone i (hstart i rfl) hedge
    | @later _ _ _ _ k hfirst halley =>
      obtain ⟨before, after, hsplit, hcalls, -⟩ := hfirst
      have hk : k ∈ g.occurrencesOf name := hoccur name rfl k (by rw [hsplit]; simp)
      cases rest with
      | nil => cases halley
      | cons c rest =>
        have hsame := halike [] name next c rest rfl i hi k hk hedge hcalls
        refine ih ?_ ?_ ?_ halley
        · intro before a b c' after hpath
          exact halike (name :: before) a b c' after (by rw [hpath]; rfl)
        · intro first hfirst l hl
          cases hfirst
          exact occurrencesOf_of_mem_reached hl
        · intro first hfirst
          cases hfirst
          rwa [← hsame]

/-! ### The steps of an answer -/

/-- Each known name has one pick, and a symbol stands there. -/
theorem picksAfter_spec (names : NamePath) :
    ∀ previous, (∀ n ∈ names, g.table.containsName n = true) →
      (g.picksAfter previous names).length = names.length ∧
      ∀ i ∈ g.picksAfter previous names, ∃ s, g.table.symbols[i]? = some s := by
  induction names with
  | nil =>
    intro previous _
    exact ⟨rfl, fun i hi => by cases hi⟩
  | cons name rest ih =>
    intro previous hknown
    obtain ⟨i, hi, -, hpicks⟩ := exists_picksAfter (hknown name List.mem_cons_self) previous rest
    obtain ⟨hlength, hsymbols⟩ := ih (some i) fun n hn => hknown n (List.mem_cons_of_mem name hn)
    rw [hpicks]
    refine ⟨by rw [List.length_cons, hlength, List.length_cons], fun j hj => ?_⟩
    rcases List.mem_cons.mp hj with rfl | hj
    · obtain ⟨s, hs, -⟩ := mem_occurrencesOf.mp (mem_occurrencesOf_of_mem_choices hi)
      exact ⟨s, hs⟩
    · exact hsymbols j hj

/-- In a table that is put together from fragments, the identities of symbols tell their positions. -/
theorem map_positionOf?_zipWith {fragments : List Fragment} (htable : g.table = .ofFragments fragments)
    (positions : List Nat) :
    ∀ names : NamePath, positions.length = names.length →
      (∀ i ∈ positions, ∃ s, g.table.symbols[i]? = some s) →
      (List.zipWith (fun name i => PathStep.mk name (g.table.symbols[i]?.getD default).id) names positions).map
        (fun step => g.table.positionOf? step.symbol) = positions.map some := by
  induction positions with
  | nil => intro names _ _; simp
  | cons i rest ih =>
    intro names hlength hsymbols
    cases names with
    | nil => cases hlength
    | cons name names =>
      obtain ⟨s, hs⟩ := hsymbols i List.mem_cons_self
      have hfound : g.table.positionOf? s.id = some i := by
        rw [htable] at hs ⊢
        exact SymbolTable.positionOf?_ofFragments hs
      rw [List.zipWith_cons_cons, List.map_cons, List.map_cons,
        ih names (Nat.succ.inj hlength) fun j hj => hsymbols j (List.mem_cons_of_mem i hj), hs]
      exact congrArg (· :: rest.map some) hfound

/-- The steps for a path of known names follow calls exactly if the choice comes to no blind alley. -/
theorem stepsFollow_representatives_iff {fragments : List Fragment} (htable : g.table = .ofFragments fragments)
    {name : String} {rest : NamePath} (hknown : ∀ n ∈ name :: rest, g.table.containsName n = true) :
    g.StepsFollow (g.representatives (name :: rest))
      ↔ ¬ g.BlindAlley (g.occurrencesOf name) (name :: rest) := by
  obtain ⟨hlength, hsymbols⟩ := picksAfter_spec (name :: rest) none hknown
  have hpositions : (g.representatives (name :: rest)).map (fun step => g.table.positionOf? step.symbol)
      = (g.picksAfter none (name :: rest)).map some := by
    rw [representatives, representativesAfter_eq_picks]
    exact map_positionOf?_zipWith htable _ _ hlength hsymbols
  have hchoices : g.occurrencesOf name = g.choices none name :=
    (g.table.positions_eq_filter_range name).symm
  rw [hchoices, ← callChain_picksAfter_iff rest name none hknown, StepsFollow, hpositions,
    representatives, g.names_representativesAfter _ hknown]
  constructor
  · intro h
    obtain ⟨positions, hsame, hchain⟩ := h
    rwa [List.map_injective_iff.mpr (Option.some_injective _) hsame]
  · exact fun hchain => ⟨_, rfl, hchain⟩

/-- The steps of an answer stand for a path of known names from the source. -/
theorem exists_representatives_of_mem_paths {source target : String} {hops : Nat} {steps : List PathStep}
    (h : steps ∈ (g.pathSearch source target hops).paths) :
    ∃ rest, steps = g.representatives (source :: rest) ∧ steps.map PathStep.name = source :: rest ∧
      ∀ n ∈ source :: rest, g.table.containsName n = true := by
  obtain ⟨hs, ht, -⟩ := isPathBetween_of_mem_namePaths (List.mem_map_of_mem h)
  rw [pathSearch_of_known hs ht] at h
  obtain ⟨path, hfound, rfl⟩ := List.mem_map.mp h
  have hpath := (isPathBetween_of_mem_simplePaths hfound).1
  have hknown := g.known_of_mem_path hs hpath
  obtain ⟨rest, rfl⟩ : ∃ rest, path = source :: rest := List.head?_eq_some_iff.mp hpath.starts
  exact ⟨rest, rfl, g.names_representativesAfter _ hknown none, hknown⟩

/-- **When the steps of a path follow calls.** Take any path of the answer to a query. The occurrences that its steps
show call each other along the path exactly if the choice does not come to a blind alley. If occurrences of its names
call each other along the path at all, it comes to none where all occurrences of a name on the path that call the next
one reach the same occurrences of it; so a single call is always followed. -/
theorem path_steps_follow_calls_iff (g : CallGraph) (fragments : List Fragment)
    (htable : g.table = .ofFragments fragments) (source target : String) (hops : Nat) (steps : List PathStep)
    (hsteps : steps ∈ (g.pathSearch source target hops).paths) :
    (g.StepsFollow steps ↔ ¬ g.BlindAlley (g.occurrencesOf source) (steps.map PathStep.name)) ∧
      (g.ReachesAlike (steps.map PathStep.name) →
        (∃ positions, g.CallChain (steps.map PathStep.name) positions) → g.StepsFollow steps) := by
  obtain ⟨rest, hrepresent, hnames, hknown⟩ := exists_representatives_of_mem_paths hsteps
  have hfollow : g.StepsFollow steps ↔ ¬ g.BlindAlley (g.occurrencesOf source) (source :: rest) := by
    rw [hrepresent]
    exact stepsFollow_representatives_iff htable hknown
  rw [hnames, hfollow]
  refine ⟨Iff.rfl, ?_⟩
  intro halike hchain
  obtain ⟨positions, hchain⟩ := hchain
  obtain ⟨i, others, rfl, hi⟩ := hchain.head_mem
  refine hchain.not_blindAlley halike ?_ ?_
  · intro first hfirst j hj
    cases hfirst
    exact hj
  · intro first hfirst
    cases hfirst
    exact hi

/-- Two files in which `s` calls `t`. Only the `t` of the second one calls `u`. -/
def sideBySide : CallGraph :=
  .ofTable
    (.ofSources [.ofText "a.c" .c "void s() { t(); }\nvoid t() { }\n".toList,
      .ofText "b.c" .c "void s() { t(); }\nvoid t() { u(); }\nvoid u() { }\n".toList])
    {}

theorem sideBySide_calls :
    (sideBySide.occurrencesOf "s" = [0, 2] ∧ sideBySide.occurrencesOf "t" = [1, 3] ∧
      sideBySide.occurrencesOf "u" = [4]) ∧
    (sideBySide.reached 0 "t" = [1] ∧ sideBySide.reached 2 "t" = [3] ∧ sideBySide.reached 3 "u" = [4]) ∧
    (sideBySide.calls 0 "t" = true ∧ sideBySide.calls 1 "u" = false ∧ sideBySide.calls 2 "t" = true ∧
      sideBySide.calls 3 "u" = true) ∧
    (sideBySide.pathSearch "t" "u" 5).paths = [[⟨"t", ⟨"t", "b.c", 2⟩⟩, ⟨"u", ⟨"u", "b.c", 3⟩⟩]] ∧
    (sideBySide.pathSearch "s" "u" 5).paths
      = [[⟨"s", ⟨"s", "a.c", 1⟩⟩, ⟨"t", ⟨"t", "a.c", 2⟩⟩, ⟨"u", ⟨"u", "b.c", 3⟩⟩]] := by
  decide +kernel

/-- From `t` to `u`, the choice looks ahead and takes the `t` of the second file, which calls `u`. -/
theorem sideBySide_follows_call :
    ∃ steps ∈ (sideBySide.pathSearch "t" "u" 5).paths,
      steps.map (fun step => step.symbol.file) = ["b.c", "b.c"] ∧
      sideBySide.ReachesAlike (steps.map PathStep.name) ∧
      sideBySide.CallChain (steps.map PathStep.name) [3, 4] ∧ sideBySide.StepsFollow steps := by
  obtain ⟨⟨-, ht, hu⟩, ⟨-, -, hreached⟩, ⟨-, -, -, hcalls⟩, hpaths, -⟩ := sideBySide_calls
  have hchain : sideBySide.CallChain ["t", "u"] [3, 4] := by
    refine .call (by rw [ht]; decide) (calls_iff.mp hcalls) (by rw [hreached]; decide) (.last (by rw [hu]; decide))
  have halike : sideBySide.ReachesAlike ["t", "u"] := by
    intro before a b c after hpath
    have hlength := congrArg List.length hpath
    simp at hlength
    omega
  have hlaw := path_steps_follow_calls_iff sideBySide _ rfl "t" "u" 5
  rw [hpaths] at hlaw ⊢
  exact ⟨_, List.mem_cons_self, rfl, halike, hchain,
    (hlaw _ List.mem_cons_self).2 halike ⟨[3, 4], hchain⟩⟩

/-- From `s` to `u`, the choice takes the `s` of the first file, since it calls `t`. That call does not leave the file,
and the `t` there does not call `u`: the steps break off where the symbols of the second file call each other. -/
theorem sideBySide_breaks_chain :
    ∃ steps ∈ (sideBySide.pathSearch "s" "u" 5).paths,
      sideBySide.CallChain (steps.map PathStep.name) [2, 3, 4] ∧ ¬ sideBySide.StepsFollow steps := by
  obtain ⟨⟨hs, ht, hu⟩, ⟨hnear, hfar, hlast⟩, ⟨hcall, hnone, hcall', hcall''⟩, -, hpaths⟩ := sideBySide_calls
  have hsteps : ([⟨"s", ⟨"s", "a.c", 1⟩⟩, ⟨"t", ⟨"t", "a.c", 2⟩⟩, ⟨"u", ⟨"u", "b.c", 3⟩⟩] : List PathStep)
      ∈ (sideBySide.pathSearch "s" "u" 5).paths := by
    rw [hpaths]
    exact List.mem_cons_self
  refine ⟨_, hsteps, ?_, ?_⟩
  · show sideBySide.CallChain ["s", "t", "u"] [2, 3, 4]
    refine .call (by rw [hs]; decide) (calls_iff.mp hcall') (by rw [hfar]; decide) ?_
    exact .call (by rw [ht]; decide) (calls_iff.mp hcall'') (by rw [hlast]; decide) (.last (by rw [hu]; decide))
  · obtain ⟨rest, hrepresent, hnames, hknown⟩ := exists_representatives_of_mem_paths hsteps
    obtain rfl : ["t", "u"] = rest := (List.cons.inj hnames).2
    rw [hrepresent, stepsFollow_representatives_iff rfl hknown, not_not, hs]
    refine .later ⟨[], [2], rfl, calls_iff.mp hcall, by simp⟩ ?_
    rw [hnear]
    refine .here fun i hi => ?_
    rw [List.mem_singleton.mp hi, ← calls_iff, hnone]
    decide

end CallGraph

end CodeAtlas
