import CodeAtlas.Proofs.PatternShapes

/-!
# Where a greedy match ends

A match whose last part is a greedy repetition of a class ends only where the next character is not in the
class. This does not follow from what a match has read: it is a fact about which threads the search prefers.

* `Pattern.waits`: the states in which a thread of a pattern can wait;
* `Pattern.finishesLoop`: a match can end only in a loop over one class;
* `Pattern.stopsLoop_of_matchAt?`: the loop does not end before a character of its class.
-/

namespace CodeAtlas

/-- Where a thread waits: the position, the class of the next character, and the patterns after it. -/
structure Wait where
  position : Nat
  cls : CharClass
  rest : List Pattern

namespace Pattern

/-! ### The states of the threads -/

/-- The states in which a thread of a pattern can wait, with `rest` behind the pattern. -/
def waits : Pattern → List Pattern → List Wait
  | char position cls, rest => [⟨position, cls, rest⟩]
  | seq a b, rest => a.waits (b :: rest) ++ b.waits rest
  | choice a b, rest => a.waits rest ++ b.waits rest
  | many greedy body, rest => body.waits (many greedy body :: rest)
  | _, _ => []

/-- The states in which a thread of some patterns can wait. -/
def waitsOf : List Pattern → List Wait
  | [] => []
  | p :: rest => p.waits rest ++ waitsOf rest

/-- A state of a thread leads only to states of the same pattern. -/
theorem waitsOf_rest_subset (p : Pattern) :
    ∀ {rest : List Pattern} {w : Wait}, w ∈ p.waits rest → waitsOf w.rest ⊆ waitsOf (p :: rest) := by
  induction p with
  | char position cls =>
    intro rest w hw
    rw [waits, List.mem_singleton] at hw
    subst hw
    exact List.subset_append_right _ _
  | seq a b iha ihb =>
    intro rest w hw
    have hwhole : waitsOf (seq a b :: rest) = waitsOf (a :: b :: rest) := by simp [waitsOf, waits]
    rw [hwhole]
    rcases List.mem_append.mp hw with hw | hw
    · exact iha hw
    · exact List.Subset.trans (ihb hw) (List.subset_append_right _ _)
  | choice a b iha ihb =>
    intro rest w hw
    have ha : waitsOf (a :: rest) ⊆ waitsOf (choice a b :: rest) := by
      simp [waitsOf, waits]
    have hb : waitsOf (b :: rest) ⊆ waitsOf (choice a b :: rest) := by
      simp [waitsOf, waits]
    rcases List.mem_append.mp hw with hw | hw
    · exact List.Subset.trans (iha hw) ha
    · exact List.Subset.trans (ihb hw) hb
  | many greedy body ih =>
    intro rest w hw
    have hwhole : waitsOf (body :: many greedy body :: rest) ⊆ waitsOf (many greedy body :: rest) := by
      simp [waitsOf, waits]
    exact List.Subset.trans (ih hw) hwhole
  | _ =>
    intro rest w hw
    cases hw

theorem waitsOf_rest_subset_of_mem (ps : List Pattern) :
    ∀ {w : Wait}, w ∈ waitsOf ps → waitsOf w.rest ⊆ waitsOf ps := by
  induction ps with
  | nil => intro w hw; cases hw
  | cons p rest ih =>
    intro w hw
    rcases List.mem_append.mp hw with hw | hw
    · exact waitsOf_rest_subset p hw
    · exact List.Subset.trans (ih hw) (List.subset_append_right _ _)

theorem wait_mem_threads {spot : Spot} {position : Nat} {cls : CharClass} {after : List Pattern} {m' : Marks}
    (p : Pattern) :
    ∀ {rest : List Pattern} {next : Marks → List Thread} {m : Marks},
      .wait position cls after m' ∈ p.threads spot rest next m →
      ⟨position, cls, after⟩ ∈ p.waits rest ∨ ∃ n, .wait position cls after m' ∈ next n := by
  induction p with
  | empty => intro rest next m ht; exact .inr ⟨m, ht⟩
  | char position' cls' =>
    intro rest next m ht
    rw [threads, List.mem_singleton] at ht
    cases ht
    exact .inl (List.mem_singleton_self _)
  | seq a b iha ihb =>
    intro rest next m ht
    rcases iha ht with ht | ⟨n, ht⟩
    · exact .inl (List.mem_append_left _ ht)
    · rcases ihb ht with ht | ht
      · exact .inl (List.mem_append_right _ ht)
      · exact .inr ht
  | choice a b iha ihb =>
    intro rest next m ht
    rcases List.mem_append.mp ht with ht | ht
    · rcases iha ht with ht | ht
      · exact .inl (List.mem_append_left _ ht)
      · exact .inr ht
    · rcases ihb ht with ht | ht
      · exact .inl (List.mem_append_right _ ht)
      · exact .inr ht
  | many greedy body ih =>
    intro rest next m ht
    have hmem : .wait position cls after m' ∈
          body.threads spot (many greedy body :: rest) (fun _ => []) m ∨
        .wait position cls after m' ∈ next m := by
      cases greedy with
      | true => exact List.mem_append.mp ht
      | false => exact (List.mem_append.mp ht).symm
    rcases hmem with ht | ht
    · rcases ih ht with ht | ⟨n, hnil⟩
      · exact .inl ht
      · cases hnil
    · exact .inr ⟨m, ht⟩
  | mark slot => intro rest next m ht; exact .inr ⟨_, ht⟩
  | lineStart =>
    intro rest next m ht
    rw [threads] at ht
    split_ifs at ht
    · exact .inr ⟨m, ht⟩
    · cases ht
  | wordEdge =>
    intro rest next m ht
    rw [threads] at ht
    split_ifs at ht
    · exact .inr ⟨m, ht⟩
    · cases ht

theorem wait_mem_threadsOf {spot : Spot} {position : Nat} {cls : CharClass} {after : List Pattern}
    {m' : Marks} (ps : List Pattern) :
    ∀ {m : Marks}, .wait position cls after m' ∈ threadsOf spot ps m →
      ⟨position, cls, after⟩ ∈ waitsOf ps := by
  induction ps with
  | nil =>
    intro m ht
    rw [threadsOf, List.mem_singleton] at ht
    cases ht
  | cons p rest ih =>
    intro m ht
    rcases wait_mem_threads p ht with ht | ⟨n, ht⟩
    · exact List.mem_append_left _ ht
    · exact List.mem_append_right _ (ih ht)

/-- Patterns that can be passed without a character pass the check for that. -/
theorem skips_of_done_mem {l r : Text} {ps : List Pattern} {m m' : Marks}
    (h : .done m' ∈ threadsOf (Place.spot ⟨l, r, m⟩) ps m) : ps.all (skips []) = true := by
  have hreads : ReadsAll ps ⟨l, r, m⟩ ⟨l, r, m'⟩ := threadsOf_sound ps h
  have hall : ∀ {k k' : Place}, ReadsAll ps k k' → k'.before.length ≤ k.before.length →
      ps.all (skips []) = true := by
    clear h hreads
    induction ps with
    | nil => intros; rfl
    | cons p rest ih =>
      intro k k'' hall hle
      cases hall with
      | @cons _ _ _ k' _ hp hrest =>
        have hrest' : ∃ v, k''.before = k'.before ++ v := by
          clear hle ih hp
          induction hrest with
          | nil k => exact ⟨[], by simp⟩
          | cons hp _ ih =>
            obtain ⟨v, hv⟩ := ih
            obtain ⟨w, hw, -⟩ := hp.exists_read
            exact ⟨w ++ v, by rw [hv, hw, List.append_assoc]⟩
        obtain ⟨v, hv⟩ := hrest'
        obtain ⟨w, hw, -, hread⟩ := hp.lasts
        rw [hv, hw, List.length_append, List.length_append] at hle
        have hw' : w = [] := List.eq_nil_of_length_eq_zero (by omega)
        rw [List.all_cons, ih hrest (by rw [hv, List.length_append]; omega), Bool.and_true]
        rcases hread with ⟨hskips, -⟩ | ⟨u, c, hu, -⟩
        · exact hskips
        · rw [hw'] at hu
          simp at hu
  exact hall hreads (Nat.le_refl _)

/-! ### Patterns that end in a loop -/

/-- Whether some patterns are a greedy repetition of the character at a position, and then a mark. -/
def isLoop (position : Nat) (cls : CharClass) : List Pattern → Bool
  | [many true (char k cls'), mark _] => k == position && cls' == cls
  | _ => false

/-- Whether a match can end only while it repeats the class at a position, and whether that position is in
no other use. -/
def finishesLoop (position : Nat) (cls : CharClass) (p : Pattern) : Bool :=
  !p.skips [] &&
    (waitsOf [p]).all fun w =>
      if w.rest.all (skips []) then w.cls == cls && isLoop position cls w.rest else w.position != position

theorem threadsOf_loop {position : Nat} {cls : CharClass} {rest : List Pattern}
    (h : isLoop position cls rest = true) (spot : Spot) (m : Marks) :
    ∃ m', threadsOf spot rest m = [.wait position cls rest m, .done m'] := by
  unfold isLoop at h
  split at h
  · rename_i k cls' slot
    simp only [Bool.and_eq_true, beq_iff_eq] at h
    obtain ⟨rfl, rfl⟩ := h
    exact ⟨_, rfl⟩
  · cases h

section

variable {p : Pattern} {position : Nat} {cls : CharClass}

theorem isLoop_of_skips (hp : p.finishesLoop position cls = true) {w : Wait} (hw : w ∈ waitsOf [p])
    (hskips : w.rest.all (skips []) = true) : isLoop position cls w.rest = true := by
  rw [finishesLoop, Bool.and_eq_true, List.all_eq_true] at hp
  have hcheck := hp.2 w hw
  rw [if_pos hskips, Bool.and_eq_true] at hcheck
  exact hcheck.2

theorem loop_of_position (hp : p.finishesLoop position cls = true) {w : Wait} (hw : w ∈ waitsOf [p])
    (hposition : w.position = position) : w.cls = cls ∧ isLoop position cls w.rest = true := by
  rw [finishesLoop, Bool.and_eq_true, List.all_eq_true] at hp
  have hcheck := hp.2 w hw
  split_ifs at hcheck with hskips
  · rw [Bool.and_eq_true, beq_iff_eq] at hcheck
    exact hcheck
  · rw [hposition, bne_self_eq_false] at hcheck
    cases hcheck

end

end Pattern

namespace Thread

/-! ### What settling keeps -/

/-- The thread waits at the position. -/
def WaitsAt (position : Nat) : Thread → Prop
  | .done _ => False
  | .wait k _ _ _ => k = position

/-- Every end of the match among the threads comes after a thread that waits at the position. -/
def Guarded (position : Nat) (threads : List Thread) : Prop :=
  ∀ left m right, threads = left ++ .done m :: right → ∃ t ∈ left, t.WaitsAt position

theorem Guarded.append {position : Nat} {ts us : List Thread} (hts : Guarded position ts)
    (hus : Guarded position us) : Guarded position (ts ++ us) := by
  intro left m right h
  rcases List.append_eq_append_iff.mp h with ⟨e, rfl, hus'⟩ | ⟨e, rfl, hright⟩
  · obtain ⟨t, ht, hwaits⟩ := hus e m right hus'
    exact ⟨t, List.mem_append_right _ ht, hwaits⟩
  · cases e with
    | nil =>
      obtain ⟨t, ht, -⟩ := hus [] m right hright.symm
      cases ht
    | cons u e =>
      obtain ⟨rfl, -⟩ := List.cons.inj hright
      exact hts left m e rfl

theorem Guarded.flatMap {α : Type} {position : Nat} {f : α → List Thread} {xs : List α}
    (h : ∀ x ∈ xs, Guarded position (f x)) : Guarded position (xs.flatMap f) := by
  induction xs with
  | nil =>
    intro left m right hnil
    simp at hnil
  | cons x xs ih =>
    rw [List.flatMap_cons]
    apply Guarded.append (h x List.mem_cons_self)
    exact ih fun y hy => h y (List.mem_cons_of_mem _ hy)

/-- An end of the match among the threads is the last of the settled threads. -/
theorem exists_finished?_of_done_mem {m : Marks} {threads : List Thread} :
    ∀ seen : List Nat, .done m ∈ threads → ∃ m', finished? (settle seen threads) = some m' := by
  induction threads with
  | nil => intro seen h; cases h
  | cons t others ih =>
    intro seen h
    cases t with
    | done m' => exact ⟨m', rfl⟩
    | wait position cls rest m' =>
      have hothers : .done m ∈ others := by
        rcases List.mem_cons.mp h with h | h
        · cases h
        · exact h
      rw [settle]
      split_ifs
      · exact ih seen hothers
      · obtain ⟨m'', hfinished⟩ := ih (position :: seen) hothers
        refine ⟨m'', ?_⟩
        have hne : settle (position :: seen) others ≠ [] := by
          intro hnil
          rw [hnil] at hfinished
          cases hfinished
        rw [finished?, List.getLast?_cons_of_ne_nil hne]
        exact hfinished

/-- A thread that guards an end of the match is kept, or another one that waits at its position. -/
theorem exists_waitsAt_of_settle {position : Nat} {m : Marks} {threads : List Thread} :
    ∀ {seen : List Nat},
      (position ∈ seen ∨ Guarded position threads) → .done m ∈ settle seen threads →
      position ∈ seen ∨ ∃ t ∈ settle seen threads, t.WaitsAt position := by
  induction threads with
  | nil => intro seen _ h; cases h
  | cons t others ih =>
    intro seen hguard h
    cases t with
    | done m' =>
      rcases hguard with hseen | hguard
      · exact .inl hseen
      · obtain ⟨t, ht, -⟩ := hguard [] m' others rfl
        cases ht
    | wait k cls rest m' =>
      -- behind a thread that waits elsewhere, the ends are guarded as before
      have hothers : position ∈ seen ∨ k = position ∨ Guarded position others := by
        rcases hguard with hseen | hguard
        · exact .inl hseen
        · by_cases hk : k = position
          · exact .inr (.inl hk)
          · refine .inr (.inr ?_)
            intro left m right hsplit
            obtain ⟨t, ht, hwaits⟩ := hguard (.wait k cls rest m' :: left) m right (by rw [hsplit]; rfl)
            rcases List.mem_cons.mp ht with rfl | ht
            · exact absurd hwaits hk
            · exact ⟨t, ht, hwaits⟩
      rw [settle] at h ⊢
      split_ifs at h ⊢ with hseen
      · rw [List.contains_iff_mem] at hseen
        apply ih _ h
        rcases hothers with hposition | rfl | hguard
        · exact .inl hposition
        · exact .inl hseen
        · exact .inr hguard
      · by_cases hk : k = position
        · exact .inr ⟨_, List.mem_cons_self, hk⟩
        · have h' : .done m ∈ settle (k :: seen) others := by
            rcases List.mem_cons.mp h with h | h
            · cases h
            · exact h
          have hguard' : position ∈ k :: seen ∨ Guarded position others := by
            rcases hothers with hposition | hk' | hguard
            · exact .inl (List.mem_cons_of_mem _ hposition)
            · exact absurd hk' hk
            · exact .inr hguard
          rcases ih hguard' h' with hposition | ⟨t, ht, hwaits⟩
          · rcases List.mem_cons.mp hposition with hk' | hposition
            · exact absurd hk'.symm hk
            · exact .inl hposition
          · exact .inr ⟨t, List.mem_cons_of_mem _ ht, hwaits⟩

/-! ### Runs of a pattern that ends in a loop -/

/-- The threads wait in states of the pattern. -/
def InStates (p : Pattern) (threads : List Thread) : Prop :=
  ∀ k cls rest m, .wait k cls rest m ∈ threads → ⟨k, cls, rest⟩ ∈ Pattern.waitsOf [p]

theorem InStates.feed {p : Pattern} {threads : List Thread} (h : InStates p threads) (spot : Spot) (c : Char) :
    InStates p (threads.flatMap (feed spot c)) := by
  intro k cls rest m hw
  obtain ⟨t, ht, hw⟩ := List.mem_flatMap.mp hw
  cases t with
  | done m' => cases hw
  | wait j cls' rest' m' =>
    rw [Thread.feed] at hw
    split_ifs at hw
    · exact Pattern.waitsOf_rest_subset_of_mem [p] (h _ _ _ _ ht) (Pattern.wait_mem_threadsOf _ hw)
    · cases hw

theorem InStates.settle {p : Pattern} {threads : List Thread} (h : InStates p threads) :
    InStates p (settle [] threads) :=
  fun k cls rest m hw => h k cls rest m (mem_of_mem_settle hw)

/-- The threads wait in states of the pattern, and can end the match only in its loop. -/
structure InLoop (p : Pattern) (position : Nat) (threads : List Thread) : Prop where
  states : ∀ k cls rest m, .wait k cls rest m ∈ threads → ⟨k, cls, rest⟩ ∈ Pattern.waitsOf [p]
  guarded : ∀ m, .done m ∈ threads → ∃ t ∈ threads, t.WaitsAt position

variable {p : Pattern} {position : Nat} {cls : CharClass}

theorem feed_guarded (hp : p.finishesLoop position cls = true) {l r : Text} {c : Char}
    {threads : List Thread} (h : InLoop p position threads) :
    Guarded position (threads.flatMap (feed (Place.spot ⟨l, r, []⟩) c)) := by
  apply Guarded.flatMap
  intro t ht
  cases t with
  | done m' =>
    intro left m right hnil
    simp [feed] at hnil
  | wait j cls' rest m' =>
    intro left m right hsplit
    rw [feed] at hsplit
    split_ifs at hsplit
    · have hdone : .done m ∈ Pattern.threadsOf (Place.spot ⟨l, r, m'⟩) rest m' := by
        show .done m ∈ Pattern.threadsOf (Place.spot ⟨l, r, []⟩) rest m'
        rw [hsplit]
        exact List.mem_append_right _ List.mem_cons_self
      -- so the rest can be passed, and is the loop: a thread that goes on comes before the end
      have hloop := Pattern.isLoop_of_skips hp (h.states _ _ _ _ ht) (Pattern.skips_of_done_mem hdone)
      obtain ⟨m'', hthreads⟩ := Pattern.threadsOf_loop hloop (Place.spot ⟨l, r, []⟩) m'
      rw [hthreads] at hsplit
      cases left with
      | nil => cases (List.cons.inj hsplit).1
      | cons u left =>
        obtain ⟨rfl, -⟩ := List.cons.inj hsplit
        exact ⟨_, List.mem_cons_self, rfl⟩
    · simp at hsplit

theorem InLoop.step (hp : p.finishesLoop position cls = true) {l r : Text} {c : Char}
    {threads : List Thread} (h : InLoop p position threads) :
    InLoop p position (settle [] (threads.flatMap (feed (Place.spot ⟨l, r, []⟩) c))) := by
  refine ⟨InStates.settle (InStates.feed h.states _ _), ?_⟩
  intro m hm
  rcases exists_waitsAt_of_settle (.inr (feed_guarded hp h)) hm with hnil | hwaits
  · cases hnil
  · exact hwaits

/-- In the loop, a character of its class leads to threads that can end the match again. -/
theorem InLoop.finishes_again (hp : p.finishesLoop position cls = true) {spot : Spot} {c : Char} {m : Marks}
    {threads : List Thread} (h : InLoop p position threads) (hm : finished? threads = some m)
    (hc : cls.contains c = true) :
    ∃ m', finished? (settle [] (threads.flatMap (feed spot c))) = some m' := by
  obtain ⟨t, ht, hwaits⟩ := h.guarded m (done_mem_of_finished? hm)
  cases t with
  | done m' => cases hwaits
  | wait k cls' rest m' =>
    obtain ⟨rfl, hloop⟩ := Pattern.loop_of_position hp (h.states _ _ _ _ ht) hwaits
    obtain ⟨m'', hthreads⟩ := Pattern.threadsOf_loop hloop spot m'
    apply exists_finished?_of_done_mem (m := m'') []
    refine List.mem_flatMap.mpr ⟨_, ht, ?_⟩
    rw [feed, if_pos hc, hthreads]
    exact List.mem_cons_of_mem _ List.mem_cons_self

/-- No character of the class stands in the text at the offset. -/
def StopsLoop (cls : CharClass) (text : Text) (offset : Nat) : Prop :=
  ∀ c, text.StandsAt c offset → cls.contains c = false

/-- **A loop runs as far as it can**: where a run of a pattern that ends in a loop stops, no character of the
class follows. -/
theorem run_stopsLoop (hp : p.finishesLoop position cls = true) {stop : Nat} {m : Marks} (r : Text) :
    ∀ {l : Text} {threads : List Thread} {best : Option (Nat × Marks)}, InLoop p position threads →
      (finished? threads = none → ∀ b, best = some b → StopsLoop cls (l ++ r) b.1) →
      run l.size threads best r = some (stop, m) → StopsLoop cls (l ++ r) stop := by
  induction r with
  | nil =>
    intro l threads best hloop hbest hrun
    rw [run] at hrun
    cases hf : finished? threads with
    | none =>
      rw [hf] at hrun
      exact hbest hf _ hrun
    | some m' =>
      rw [hf] at hrun
      cases hrun
      intro c hc
      have hlt := hc.lt
      rw [List.append_nil] at hlt
      omega
  | cons c r ih =>
    intro l threads best hloop hbest hrun
    have htext : l ++ c :: r = l ++ [c] ++ r := by simp
    have hspot : (⟨l.size + c.utf8Size, some c, r.head?⟩ : Spot) = Place.spot ⟨l ++ [c], r, []⟩ := by
      simp [Place.spot]
    generalize hbest' : ((finished? threads).map (l.size, ·)).or best = best'
    -- an end that is found here is final only if the loop cannot go on
    have hfinal : finished? (settle [] (threads.flatMap (feed (Place.spot ⟨l ++ [c], r, []⟩) c))) = none →
        ∀ b, best' = some b → StopsLoop cls (l ++ c :: r) b.1 := by
      intro hnone b hb
      cases hf : finished? threads with
      | none =>
        rw [hf] at hbest'
        exact hbest hf b (hbest'.trans hb)
      | some m' =>
        rw [hf] at hbest'
        cases hbest'.trans hb
        intro d hd
        obtain ⟨before, after, hsplit, hsize⟩ := hd
        obtain ⟨-, hcons⟩ := Text.append_inj_of_size hsplit hsize
        cases hcons
        by_contra hc
        rw [Bool.not_eq_false] at hc
        obtain ⟨m'', hsome⟩ := hloop.finishes_again hp hf hc
        rw [hsome] at hnone
        cases hnone
    rw [run, hbest'] at hrun
    dsimp only at hrun
    rw [hspot] at hrun
    split at hrun
    · rename_i hnil
      exact hfinal (by rw [hnil]; rfl) _ hrun
    · have hsize : l.size + c.utf8Size = Text.size (l ++ [c]) := by simp
      rw [hsize] at hrun
      rw [htext] at hfinal ⊢
      exact ih (hloop.step hp) hfinal hrun

end Thread

namespace Pattern

theorem stopsLoop_of_matchAt? {p : Pattern} {position : Nat} {cls : CharClass}
    (hp : p.finishesLoop position cls = true) {l r : Text} {m : Match}
    (h : p.matchAt? l.getLast? l.size r = some m) : Thread.StopsLoop cls (l ++ r) m.span.stop := by
  rw [matchAt?, Option.map_eq_some_iff] at h
  obtain ⟨⟨stop, marks⟩, hrun, rfl⟩ := h
  have hnotDone : ∀ m, .done m ∉ Thread.settle [] (threadsOf (Place.spot ⟨l, r, []⟩) [p] []) := by
    intro m hm
    have hskips := skips_of_done_mem (Thread.mem_of_mem_settle hm)
    rw [finishesLoop, Bool.and_eq_true, Bool.not_eq_true'] at hp
    rw [List.all_cons, hp.1] at hskips
    cases hskips
  have hloop : Thread.InLoop p position (Thread.settle [] (threadsOf (Place.spot ⟨l, r, []⟩) [p] [])) :=
    ⟨fun k cls' rest m hw => wait_mem_threadsOf [p] (Thread.mem_of_mem_settle hw),
      fun m hm => absurd hm (hnotDone m)⟩
  exact Thread.run_stopsLoop hp r hloop (fun _ b hb => by cases hb) hrun

end Pattern

end CodeAtlas
