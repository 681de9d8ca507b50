import CodeAtlas.Proofs.PatternEnds
import Mathlib.Data.List.Nodup

/-!
# The search finds what there is to find

The search keeps one thread for each position of the pattern, the preferred one. Since the positions of a numbered
pattern tell its states apart, what is dropped has the same future as what is kept: wherever a pattern can read on
from a place, the search has a match there.

* `Pattern.Reads.begins`: every way begins with a thread;
* `Pattern.eq_of_position_eq`: the states of a numbered pattern have positions of their own;
* `Pattern.exists_matchAt?_of_reads`: where there is a way there is a match;
* `Pattern.mem_findAll_of_matchAt?`: the matches of a pattern that stays on its line do not hide each other.
-/

namespace CodeAtlas

theorem Place.spot_congr {k k' : Place} (hbefore : k'.before = k.before) (hafter : k'.after = k.after) :
    k'.spot = k.spot := by
  rw [Place.spot, hbefore, hafter]
  rfl

namespace Pattern

/-! ### Ways and marks -/

/-- The marks do not decide where a way leads to. -/
theorem Reads.remark {p : Pattern} {k k' : Place} (h : Reads p k k') :
    ∀ m : Marks, ∃ m', Reads p ⟨k.before, k.after, m⟩ ⟨k'.before, k'.after, m'⟩ := by
  induction h with
  | empty k => intro m; exact ⟨m, .empty _⟩
  | char position hc l r _ => intro m; exact ⟨m, .char position hc l r m⟩
  | seq _ _ ih ih' =>
    intro m
    obtain ⟨m', hfirst⟩ := ih m
    obtain ⟨m'', hsecond⟩ := ih' m'
    exact ⟨m'', .seq hfirst hsecond⟩
  | left _ ih => intro m; exact (ih m).imp fun m' h => .left h
  | right _ ih => intro m; exact (ih m).imp fun m' h => .right h
  | stop greedy body k => intro m; exact ⟨m, .stop greedy body _⟩
  | round _ _ ih ih' =>
    intro m
    obtain ⟨m', hfirst⟩ := ih m
    obtain ⟨m'', hothers⟩ := ih' m'
    exact ⟨m'', .round hfirst hothers⟩
  | mark slot l r _ => intro m; exact ⟨_, .mark slot l r m⟩
  | lineStart h => intro m; exact ⟨m, .lineStart h⟩
  | wordEdge h => intro m; exact ⟨m, .wordEdge h⟩

theorem ReadsAll.remark {ps : List Pattern} {k k' : Place} (h : ReadsAll ps k k') :
    ∀ m : Marks, ∃ m', ReadsAll ps ⟨k.before, k.after, m⟩ ⟨k'.before, k'.after, m'⟩ := by
  induction h with
  | nil k => intro m; exact ⟨m, .nil _⟩
  | cons hfirst _ ih =>
    intro m
    obtain ⟨m', hfirst'⟩ := hfirst.remark m
    obtain ⟨m'', hothers⟩ := ih m'
    exact ⟨m'', .cons hfirst' hothers⟩

theorem ReadsAll.append {ps qs : List Pattern} {k k' k'' : Place} (h : ReadsAll ps k k') (h' : ReadsAll qs k' k'') :
    ReadsAll (ps ++ qs) k k'' := by
  induction h with
  | nil k => exact h'
  | cons hfirst _ ih => exact .cons hfirst (ih h')

/-! ### Every way begins with a thread -/

/-- How a way from one place to another begins among some threads, with `rest` behind the way: it reads no character,
and the threads that follow are there; or one of the threads waits for its first character, with the rest of the way
behind it. -/
def Begins (k k' : Place) (rest : List Pattern) (next : Marks → List Thread) (threads : List Thread) : Prop :=
  (k'.before = k.before ∧ k'.after = k.after ∧ ∃ m, next m ⊆ threads) ∨
    ∃ c r position cls more m, k.after = c :: r ∧ cls.contains c = true ∧
      .wait position cls (more ++ rest) m ∈ threads ∧
      ∃ m', ReadsAll more ⟨k.before ++ [c], r, m⟩ ⟨k'.before, k'.after, m'⟩

section Begins

variable {k k₁ k' : Place} {rest : List Pattern} {next next' : Marks → List Thread} {threads threads' : List Thread}

theorem Begins.mono (h : Begins k k' rest next threads) (hsub : threads ⊆ threads') :
    Begins k k' rest next threads' := by
  rcases h with ⟨hbefore, hafter, m, hnext⟩ | ⟨c, r, position, cls, more, m, hk, hc, hmem, hmore⟩
  · exact .inl ⟨hbefore, hafter, m, List.Subset.trans hnext hsub⟩
  · exact .inr ⟨c, r, position, cls, more, m, hk, hc, hsub hmem, hmore⟩

/-- A way that goes on with another one begins as the first one does, unless that reads no character. -/
theorem Begins.step {p : Pattern} (h : Begins k k₁ (p :: rest) next' threads) (hp : Reads p k₁ k')
    (hskip : k₁.before = k.before → k₁.after = k.after → ∀ m, next' m ⊆ threads → Begins k k' rest next threads) :
    Begins k k' rest next threads := by
  rcases h with ⟨hbefore, hafter, m, hnext⟩ | ⟨c, r, position, cls, more, m, hk, hc, hmem, m', hmore⟩
  · exact hskip hbefore hafter m hnext
  · obtain ⟨m'', hp'⟩ := hp.remark m'
    refine .inr ⟨c, r, position, cls, more ++ [p], m, hk, hc, ?_, m'', hmore.append (.cons hp' (.nil _))⟩
    rw [List.append_assoc]
    exact hmem

end Begins

/-- **Every way begins** among the threads of its pattern. -/
theorem Reads.begins {p : Pattern} {k k' : Place} (h : Reads p k k') :
    ∀ (rest : List Pattern) (next : Marks → List Thread) (m : Marks),
      Begins k k' rest next (p.threads k.spot rest next m) := by
  induction h with
  | empty k =>
    intro rest next m
    exact .inl ⟨rfl, rfl, m, List.Subset.refl _⟩
  | @char position cls c hc l r _ =>
    intro rest next m
    exact .inr ⟨c, r, position, cls, [], m, rfl, hc, List.mem_singleton_self _, m, .nil _⟩
  | @seq a b k k₁ k' _ hsecond ih ih' =>
    intro rest next m
    refine (ih (b :: rest) (b.threads k.spot rest next) m).step hsecond ?_
    intro hbefore hafter m₁ hnext
    have hspot := Place.spot_congr hbefore hafter
    have hbegins := ih' rest next m₁
    rw [Begins, hspot, hbefore, hafter] at hbegins
    exact Begins.mono hbegins hnext
  | left _ ih =>
    intro rest next m
    exact (ih rest next m).mono (List.subset_append_left _ _)
  | right _ ih =>
    intro rest next m
    exact (ih rest next m).mono (List.subset_append_right _ _)
  | stop greedy body k =>
    intro rest next m
    refine .inl ⟨rfl, rfl, m, ?_⟩
    cases greedy with
    | true => exact List.subset_append_right _ _
    | false => exact List.subset_append_left _ _
  | @round greedy body k k₁ k' _ hothers ih ih' =>
    intro rest next m
    have hround : body.threads k.spot (many greedy body :: rest) (fun _ => []) m ⊆
        (many greedy body).threads k.spot rest next m := by
      cases greedy with
      | true => exact List.subset_append_left _ _
      | false => exact List.subset_append_right _ _
    refine ((ih (many greedy body :: rest) (fun _ => []) m).mono hround).step hothers ?_
    -- a round that reads nothing is left out
    intro hbefore hafter _ _
    have hspot := Place.spot_congr hbefore hafter
    have hbegins := ih' rest next m
    rwa [Begins, hspot, hbefore, hafter] at hbegins
  | mark slot l r _ =>
    intro rest next m
    exact .inl ⟨rfl, rfl, _, List.Subset.refl _⟩
  | @lineStart k h =>
    intro rest next m
    refine .inl ⟨rfl, rfl, m, ?_⟩
    rw [threads, if_pos h]
    exact List.Subset.refl _
  | @wordEdge k h =>
    intro rest next m
    refine .inl ⟨rfl, rfl, m, ?_⟩
    rw [threads, if_pos h]
    exact List.Subset.refl _

end Pattern

/-- The thread has come to an end of the match, or can read on to one. -/
def Thread.Leads (l r : Text) : Thread → Prop
  | .done _ => True
  | .wait _ cls rest m =>
    ∃ c r' k', r = c :: r' ∧ cls.contains c = true ∧ Pattern.ReadsAll rest ⟨l ++ [c], r', m⟩ k'

theorem Pattern.ReadsAll.exists_thread {ps : List Pattern} {k k' : Place} (h : ReadsAll ps k k') :
    ∀ m : Marks, ∃ t ∈ threadsOf k.spot ps m, t.Leads k.before k.after := by
  induction h with
  | nil k =>
    intro m
    exact ⟨.done m, List.mem_singleton_self _, trivial⟩
  | @cons p rest k k₁ k' hfirst hothers ih =>
    intro m
    rcases hfirst.begins rest (threadsOf k.spot rest) m with
      ⟨hbefore, hafter, m₁, hsub⟩ | ⟨c, r, position, cls, more, m₁, hk, hc, hmem, m₂, hmore⟩
    · have hspot := Place.spot_congr hbefore hafter
      obtain ⟨t, ht, hleads⟩ := ih m₁
      rw [hspot] at ht
      rw [hbefore, hafter] at hleads
      exact ⟨t, hsub ht, hleads⟩
    · obtain ⟨m₃, hothers'⟩ := hothers.remark m₂
      exact ⟨_, hmem, c, r, _, hk, hc, hmore.append hothers'⟩

/-! ### The states of a numbered pattern -/

namespace Pattern

/-- The positions of the states of a numbered pattern follow each other. -/
theorem exists_position_waits (p : Pattern) :
    ∀ (start : Nat) (rest : List Pattern), ∃ count, (numberFrom start p).2 = start + count ∧
      ((numberFrom start p).1.waits rest).map Wait.position = List.range' start count := by
  induction p with
  | char position cls => intro start rest; exact ⟨1, rfl, rfl⟩
  | seq a b iha ihb =>
    intro start rest
    obtain ⟨count, hnext, hwaits⟩ := iha start ((numberFrom (numberFrom start a).2 b).1 :: rest)
    obtain ⟨count', hnext', hwaits'⟩ := ihb (numberFrom start a).2 rest
    refine ⟨count + count', ?_, ?_⟩
    · rw [numberFrom, hnext', hnext, Nat.add_assoc]
    · rw [numberFrom, waits, List.map_append, hwaits, hwaits', hnext, List.range'_append_1]
  | choice a b iha ihb =>
    intro start rest
    obtain ⟨count, hnext, hwaits⟩ := iha start rest
    obtain ⟨count', hnext', hwaits'⟩ := ihb (numberFrom start a).2 rest
    refine ⟨count + count', ?_, ?_⟩
    · rw [numberFrom, hnext', hnext, Nat.add_assoc]
    · rw [numberFrom, waits, List.map_append, hwaits, hwaits', hnext, List.range'_append_1]
  | many greedy body ih => intro start rest; exact ih start _
  | _ => intro start rest; exact ⟨0, rfl, rfl⟩

/-- **Positions tell states apart** in a numbered pattern. -/
theorem eq_of_position_eq (p : Pattern) {w w' : Wait} (hw : w ∈ waitsOf [numbered p])
    (hw' : w' ∈ waitsOf [numbered p]) (h : w.position = w'.position) : w = w' := by
  obtain ⟨count, -, hpositions⟩ := exists_position_waits p 0 []
  have hnodup : ((waitsOf [numbered p]).map Wait.position).Nodup := by
    rw [waitsOf, waitsOf, List.append_nil, numbered, hpositions]
    exact List.nodup_range'
  exact List.inj_on_of_nodup_map hnodup hw hw' h

end Pattern

/-! ### Settling and running -/

namespace Thread

/-- A thread that waits is kept, or another one at its position, or an end of the match comes before it. -/
theorem exists_mem_settle {position : Nat} {t : Thread} (hwaits : t.WaitsAt position) {threads : List Thread} :
    ∀ {seen : List Nat}, t ∈ threads → position ∉ seen →
      (∃ m, .done m ∈ settle seen threads) ∨ ∃ t' ∈ settle seen threads, t'.WaitsAt position := by
  induction threads with
  | nil => intro seen ht; cases ht
  | cons u others ih =>
    intro seen ht hseen
    cases u with
    | done m => exact .inl ⟨m, List.mem_singleton_self _⟩
    | wait k cls rest m =>
      by_cases hk : k = position
      · rw [settle, if_neg (by rw [List.contains_iff_mem, hk]; exact hseen)]
        exact .inr ⟨_, List.mem_cons_self, hk⟩
      · have hothers : t ∈ others := by
          rcases List.mem_cons.mp ht with rfl | ht
          · exact absurd hwaits hk
          · exact ht
        rw [settle]
        split_ifs
        · exact ih hothers hseen
        · have hseen' : position ∉ k :: seen := by
            rw [List.mem_cons, not_or]
            exact ⟨fun h => hk h.symm, hseen⟩
          rcases ih hothers hseen' with ⟨m', hm'⟩ | ⟨t', ht', hwaits'⟩
          · exact .inl ⟨m', List.mem_cons_of_mem _ hm'⟩
          · exact .inr ⟨t', List.mem_cons_of_mem _ ht', hwaits'⟩

/-- Settling keeps a thread that leads to an end, if there is one. -/
theorem exists_leads_settle {p : Pattern} {l r : Text} {threads : List Thread} (hstates : InStates p.numbered threads)
    (h : ∃ t ∈ threads, t.Leads l r) : ∃ t ∈ settle [] threads, t.Leads l r := by
  obtain ⟨t, ht, hleads⟩ := h
  cases t with
  | done m =>
    obtain ⟨m', hm'⟩ := exists_finished?_of_done_mem [] ht
    exact ⟨_, done_mem_of_finished? hm', trivial⟩
  | wait position cls rest m =>
    rcases exists_mem_settle (t := .wait position cls rest m) rfl ht List.not_mem_nil with ⟨m', hm'⟩ | ⟨t', ht', hwaits⟩
    · exact ⟨_, hm', trivial⟩
    · cases t' with
      | done m' => exact ⟨_, ht', trivial⟩
      | wait k cls' rest' m' =>
        -- both wait in the same state, only with other marks
        have hsame := Pattern.eq_of_position_eq p (hstates _ _ _ _ (mem_of_mem_settle ht')) (hstates _ _ _ _ ht) hwaits
        cases hsame
        obtain ⟨c, r', k', hr, hc, hreads⟩ := hleads
        obtain ⟨m'', hreads'⟩ := hreads.remark m'
        exact ⟨_, ht', c, r', _, hr, hc, hreads'⟩

/-- A character leads a thread that leads to an end to one that does so again, unless it has come to one. -/
theorem exists_leads_feed {l r : Text} {c : Char} {t : Thread} (hleads : t.Leads l (c :: r)) :
    (∃ m, t = .done m) ∨ ∃ t' ∈ t.feed (Place.spot ⟨l ++ [c], r, []⟩) c, t'.Leads (l ++ [c]) r := by
  cases t with
  | done m => exact .inl ⟨m, rfl⟩
  | wait position cls rest m =>
    obtain ⟨d, r', k', hr, hd, hreads⟩ := hleads
    cases hr
    rw [Thread.feed, if_pos hd]
    exact .inr (hreads.exists_thread m)

/-- **A run finds an end** if a thread leads to one. -/
theorem exists_run {p : Pattern} (r : Text) :
    ∀ {l : Text} {threads : List Thread} {best : Option (Nat × Marks)}, InStates p.numbered threads →
      (best.isSome = true ∨ ∃ t ∈ settle [] threads, t.Leads l r) →
      (run l.size (settle [] threads) best r).isSome = true := by
  induction r with
  | nil =>
    intro l threads best hstates h
    rw [run]
    rcases h with h | ⟨t, ht, hleads⟩
    · rw [Option.isSome_or, h, Bool.or_true]
    · cases t with
      | done m =>
        obtain ⟨m', hm'⟩ := exists_finished?_of_done_mem [] (mem_of_mem_settle ht)
        rw [hm']
        rfl
      | wait position cls rest m =>
        obtain ⟨c, r', k', hr, -⟩ := hleads
        cases hr
  | cons c r ih =>
    intro l threads best hstates h
    rw [run]
    dsimp only
    generalize hbest : ((finished? (settle [] threads)).map (l.size, ·)).or best = best'
    have hgoes : best'.isSome = true ∨
        ∃ t ∈ (settle [] threads).flatMap (feed (Place.spot ⟨l ++ [c], r, []⟩) c), t.Leads (l ++ [c]) r := by
      rw [← hbest, Option.isSome_or]
      rcases h with h | ⟨t, ht, hleads⟩
      · exact .inl (by rw [h, Bool.or_true])
      · rcases exists_leads_feed hleads with ⟨m, rfl⟩ | ⟨t', ht', hleads'⟩
        · obtain ⟨m', hm'⟩ := exists_finished?_of_done_mem [] (mem_of_mem_settle ht)
          exact .inl (by rw [hm']; rfl)
        · exact .inr ⟨t', List.mem_flatMap.mpr ⟨t, ht, ht'⟩, hleads'⟩
    have hsize : l.size + c.utf8Size = Text.size (l ++ [c]) := by
      rw [Text.size_append, Text.size_cons, Text.size_nil, Nat.add_zero]
    have hspot : (⟨Text.size (l ++ [c]), some c, r.head?⟩ : Spot) = Place.spot ⟨l ++ [c], r, []⟩ := by
      simp [Place.spot]
    rw [hsize, hspot]
    have hstates' := hstates.settle.feed (Place.spot ⟨l ++ [c], r, []⟩) c
    have hsettled := hgoes.imp_right (exists_leads_settle hstates')
    have hrun := ih hstates' hsettled
    split
    · rename_i hnil
      rcases hsettled with hsome | ⟨t, ht, -⟩
      · exact hsome
      · rw [hnil] at ht
        cases ht
    · exact hrun

end Thread

namespace Pattern

/-- **Where there is a way there is a match.** -/
theorem exists_matchAt?_of_reads {p : Pattern} {l r : Text} {k : Place} (h : Reads p.numbered ⟨l, r, []⟩ k) :
    ∃ m, p.numbered.matchAt? l.getLast? l.size r = some m := by
  have hstates : Thread.InStates p.numbered (threadsOf (Place.spot ⟨l, r, []⟩) [p.numbered] []) :=
    fun k cls rest m hw => wait_mem_threadsOf [p.numbered] hw
  have hleads : ∃ t ∈ threadsOf (Place.spot ⟨l, r, []⟩) [p.numbered] [], t.Leads l r :=
    ReadsAll.exists_thread (.cons h (.nil k)) []
  have hsome : (Thread.run l.size (Thread.settle [] (threadsOf (Place.spot ⟨l, r, []⟩) [p.numbered] [])) none r).isSome
      = true := Thread.exists_run r hstates (.inr (Thread.exists_leads_settle hstates hleads))
  obtain ⟨⟨stop, marks⟩, hrun⟩ := Option.isSome_iff_exists.mp hsome
  exact ⟨_, by rw [matchAt?]; exact Option.map_eq_some_iff.mpr ⟨_, hrun, rfl⟩⟩

/-! ### Matches on lines of their own -/

theorem mem_findAllFrom_of_matchAt? {p : Pattern} {l r : Text} {m : Match} (hanchored : p.anchored = true)
    (havoids : p.avoids '\n' = true) (hm : p.matchAt? l.getLast? l.size r = some m) (u : Text) :
    ∀ {skip : Nat} {l₀ : Text}, l = l₀ ++ u → skip ≤ l.size →
      m ∈ p.findAllFrom skip l₀.getLast? l₀.size (u ++ r) := by
  obtain ⟨_, _, -, hhere⟩ := reads_of_matchAt? hm
  have hline := hhere.startsLine hanchored
  induction u with
  | nil =>
    intro skip l₀ hl hskip
    rw [List.append_nil] at hl
    subst hl
    cases r with
    | nil =>
      rw [List.nil_append, findAllFrom, if_neg (by omega), hm]
      exact List.mem_singleton_self m
    | cons c r =>
      rw [List.nil_append, findAllFrom, if_neg (by omega), hm]
      exact List.mem_cons_self
  | cons c u ih =>
    intro skip l₀ hl hskip
    have hl' : l = l₀ ++ [c] ++ u := by rw [hl, List.append_assoc]; rfl
    have hnext : l₀.size + c.utf8Size = Text.size (l₀ ++ [c]) := by
      rw [Text.size_append, Text.size_cons, Text.size_nil, Nat.add_zero]
    have hbefore : some c = (l₀ ++ [c]).getLast? := by simp
    have hnewline : '\n' ∈ c :: u := by
      have hlast : l.getLast? = some ((c :: u).getLast (List.cons_ne_nil c u)) := by
        rw [hl, List.getLast?_append_of_ne_nil _ (List.cons_ne_nil c u), List.getLast?_eq_some_getLast]
      rw [Place.spot, Spot.startsLine, hlast] at hline
      rw [← beq_iff_eq.mp hline]
      exact List.getLast_mem _
    rw [List.cons_append, findAllFrom, hnext, hbefore]
    split_ifs with hpassed
    · exact ih hl' hskip
    · split
      · rename_i m' hm'
        refine List.mem_cons_of_mem _ (ih hl' ?_)
        -- the other match ends on its line, and the line ends before this one
        obtain ⟨l', r', hspan, hreads⟩ := reads_of_matchAt? hm'
        obtain ⟨w, hbefore', hafter, hw⟩ := hreads.avoids havoids
        dsimp only at hbefore' hafter
        rw [← List.cons_append] at hafter
        rw [hspan, hbefore', hl, Text.size_append, Text.size_append]
        rcases List.append_eq_append_iff.mp hafter with ⟨x, hx, -⟩ | ⟨x, hx, -⟩
        · exact absurd (by rw [hx]; exact List.mem_append_left x hnewline) hw
        · rw [hx, Text.size_append]
          exact Nat.add_le_add_left (Nat.le_add_right _ _) _
      · exact ih hl' hskip

/-- **A match on a line of its own is found**: no match that starts on another line covers its start. -/
theorem mem_findAll_of_matchAt? {p : Pattern} {l r : Text} {m : Match} (hanchored : p.anchored = true)
    (havoids : p.avoids '\n' = true) (hm : p.matchAt? l.getLast? l.size r = some m) : m ∈ p.findAll (l ++ r) := by
  have hmem : m ∈ p.findAllFrom 0 (List.getLast? ([] : Text)) (Text.size []) (l ++ r) :=
    mem_findAllFrom_of_matchAt? hanchored havoids hm l rfl (Nat.zero_le _)
  exact hmem

end Pattern

end CodeAtlas
