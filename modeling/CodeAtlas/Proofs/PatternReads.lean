import CodeAtlas.Pattern.Search
import CodeAtlas.Proofs.TextCuts

/-!
# What a match has read

The search runs many threads through a text. This file says what a match that it finds is: a way through the
pattern, which reads one character after another and records the offsets that it passes.

* `Pattern.Reads`: a pattern leads from one place of a text to another;
* `Pattern.threads_sound`, `Thread.run_sound`: every thread is the beginning of such a way;
* `Pattern.reads_of_matchAt?`: every match is such a way.
-/

namespace CodeAtlas

/-- A place in a text, with the offsets that were recorded on the way to it. -/
structure Place where
  before : Text
  after : Text
  marks : Marks

/-- What the search sees of a place. -/
def Place.spot (k : Place) : Spot :=
  ⟨k.before.size, k.before.getLast?, k.after.head?⟩

/-- The pattern can lead from one place to another. -/
inductive Pattern.Reads : Pattern → Place → Place → Prop
  | empty (k : Place) : Reads .empty k k
  | char (position : Nat) {cls : CharClass} {c : Char} (h : cls.contains c = true) (l r : Text)
      (m : Marks) : Reads (.char position cls) ⟨l, c :: r, m⟩ ⟨l ++ [c], r, m⟩
  | seq {a b : Pattern} {k k' k'' : Place} (first : Reads a k k') (second : Reads b k' k'') :
      Reads (.seq a b) k k''
  | left {a b : Pattern} {k k' : Place} (h : Reads a k k') : Reads (.choice a b) k k'
  | right {a b : Pattern} {k k' : Place} (h : Reads b k k') : Reads (.choice a b) k k'
  | stop (greedy : Bool) (body : Pattern) (k : Place) : Reads (.many greedy body) k k
  | round {greedy : Bool} {body : Pattern} {k k' k'' : Place} (first : Reads body k k')
      (others : Reads (.many greedy body) k' k'') : Reads (.many greedy body) k k''
  | mark (slot : Nat) (l r : Text) (m : Marks) :
      Reads (.mark slot) ⟨l, r, m⟩ ⟨l, r, (slot, l.size) :: m⟩
  | lineStart {k : Place} (h : k.spot.startsLine = true) : Reads .lineStart k k
  | wordEdge {k : Place} (h : k.spot.isWordEdge = true) : Reads .wordEdge k k

/-- The patterns of a list lead from one place to another, one after the other. -/
inductive Pattern.ReadsAll : List Pattern → Place → Place → Prop
  | nil (k : Place) : ReadsAll [] k k
  | cons {p : Pattern} {rest : List Pattern} {k k' k'' : Place} (first : Reads p k k')
      (others : ReadsAll rest k' k'') : ReadsAll (p :: rest) k k''

namespace Pattern

/-! ### Every thread is the beginning of a way -/

/-- Where a thread that stands between `l` and `r` comes to, there `ps` can come to from the place `k`. -/
def Promises (ps : List Pattern) (k : Place) (l r : Text) : Thread → Prop
  | .done m => ReadsAll ps k ⟨l, r, m⟩
  | .wait _ cls rest m =>
    ∀ c r' k', r = c :: r' → cls.contains c = true → ReadsAll rest ⟨l ++ [c], r', m⟩ k' → ReadsAll ps k k'

theorem Promises.imp {ps qs : List Pattern} {k j : Place} {l r : Text} {t : Thread}
    (h : Promises ps k l r t) (himp : ∀ k', ReadsAll ps k k' → ReadsAll qs j k') : Promises qs j l r t := by
  cases t with
  | done m => exact himp _ h
  | wait position cls rest m =>
    intro c r' k' hr hc hrest
    exact himp k' (h c r' k' hr hc hrest)

/-- A thread of a pattern has passed the pattern without a character, or it waits inside of it. -/
theorem threads_sound {l r : Text} (p : Pattern) :
    ∀ {rest : List Pattern} {next : Marks → List Thread} {m : Marks} {t : Thread},
      t ∈ p.threads (Place.spot ⟨l, r, m⟩) rest next m →
      (∃ m', Reads p ⟨l, r, m⟩ ⟨l, r, m'⟩ ∧ t ∈ next m') ∨ Promises (p :: rest) ⟨l, r, m⟩ l r t := by
  induction p with
  | empty =>
    intro rest next m t ht
    exact .inl ⟨m, .empty _, ht⟩
  | char position cls =>
    intro rest next m t ht
    rw [threads, List.mem_singleton] at ht
    subst ht
    right
    intro c r' k' hr hc hrest
    subst hr
    exact .cons (.char position hc l r' m) hrest
  | seq a b iha ihb =>
    intro rest next m t ht
    rw [threads] at ht
    rcases iha ht with ⟨m', ha, ht⟩ | ht
    · rcases ihb (m := m') ht with ⟨m'', hb, ht⟩ | ht
      · exact .inl ⟨m'', .seq ha hb, ht⟩
      · right
        apply ht.imp
        intro k' hk'
        cases hk' with
        | cons hb hrest => exact .cons (.seq ha hb) hrest
    · right
      apply ht.imp
      intro k' hk'
      cases hk' with
      | cons ha hrest =>
        cases hrest with
        | cons hb hrest => exact .cons (.seq ha hb) hrest
  | choice a b iha ihb =>
    intro rest next m t ht
    rw [threads, List.mem_append] at ht
    rcases ht with ht | ht
    · rcases iha ht with ⟨m', ha, ht⟩ | ht
      · exact .inl ⟨m', .left ha, ht⟩
      · right
        apply ht.imp
        intro k' hk'
        cases hk' with
        | cons ha hrest => exact .cons (.left ha) hrest
    · rcases ihb ht with ⟨m', hb, ht⟩ | ht
      · exact .inl ⟨m', .right hb, ht⟩
      · right
        apply ht.imp
        intro k' hk'
        cases hk' with
        | cons hb hrest => exact .cons (.right hb) hrest
  | many greedy body ih =>
    intro rest next m t ht
    have hmem : t ∈ body.threads (Place.spot ⟨l, r, m⟩) (many greedy body :: rest) (fun _ => []) m ∨
        t ∈ next m := by
      cases greedy with
      | true => exact List.mem_append.mp ht
      | false => exact (List.mem_append.mp ht).symm
    rcases hmem with ht | ht
    · rcases ih ht with ⟨m', -, hnil⟩ | ht
      · -- a round that reads nothing is not counted
        cases hnil
      · right
        apply ht.imp
        intro k' hk'
        cases hk' with
        | cons hbody hrest =>
          cases hrest with
          | cons hmany hrest => exact .cons (.round hbody hmany) hrest
    · exact .inl ⟨m, .stop greedy body _, ht⟩
  | mark slot =>
    intro rest next m t ht
    exact .inl ⟨(slot, l.size) :: m, .mark slot l r m, ht⟩
  | lineStart =>
    intro rest next m t ht
    rw [threads] at ht
    split_ifs at ht with h
    · exact .inl ⟨m, .lineStart h, ht⟩
    · cases ht
  | wordEdge =>
    intro rest next m t ht
    rw [threads] at ht
    split_ifs at ht with h
    · exact .inl ⟨m, .wordEdge h, ht⟩
    · cases ht

theorem threadsOf_sound {l r : Text} (ps : List Pattern) :
    ∀ {m : Marks} {t : Thread}, t ∈ threadsOf (Place.spot ⟨l, r, m⟩) ps m → Promises ps ⟨l, r, m⟩ l r t := by
  induction ps with
  | nil =>
    intro m t ht
    rw [threadsOf, List.mem_singleton] at ht
    subst ht
    exact ReadsAll.nil _
  | cons p rest ih =>
    intro m t ht
    rcases threads_sound p ht with ⟨m', hp, ht⟩ | ht
    · apply (ih (m := m') ht).imp
      intro k' hrest
      exact .cons hp hrest
    · exact ht

end Pattern

/-! ### Running the threads -/

namespace Thread

theorem mem_of_mem_settle {t : Thread} {threads : List Thread} :
    ∀ {seen : List Nat}, t ∈ settle seen threads → t ∈ threads := by
  induction threads with
  | nil => intro seen ht; exact ht
  | cons u others ih =>
    intro seen ht
    cases u with
    | done m =>
      rw [settle, List.mem_singleton] at ht
      exact ht ▸ List.mem_cons_self
    | wait position cls rest m =>
      rw [settle] at ht
      split_ifs at ht with hseen
      · exact List.mem_cons_of_mem _ (ih ht)
      · rcases List.mem_cons.mp ht with ht | ht
        · exact ht ▸ List.mem_cons_self
        · exact List.mem_cons_of_mem _ (ih ht)

theorem done_mem_of_finished? {threads : List Thread} {m : Marks} (h : finished? threads = some m) :
    .done m ∈ threads := by
  rw [finished?] at h
  split at h
  · rename_i m' hlast
    cases h
    exact List.mem_of_getLast? hlast
  · cases h

/-- A character that a promising thread reads leads to promising threads. -/
theorem feed_sound {ps : List Pattern} {k : Place} {l r : Text} {c : Char} {t u : Thread}
    (ht : Pattern.Promises ps k l (c :: r) t)
    (hu : u ∈ feed ⟨l.size + c.utf8Size, some c, r.head?⟩ c t) : Pattern.Promises ps k (l ++ [c]) r u := by
  cases t with
  | done m => cases hu
  | wait position cls rest m =>
    rw [feed] at hu
    split_ifs at hu with hc
    · have hspot : (⟨l.size + c.utf8Size, some c, r.head?⟩ : Spot) = Place.spot ⟨l ++ [c], r, m⟩ := by
        simp [Place.spot]
      rw [hspot] at hu
      apply (Pattern.threadsOf_sound rest hu).imp
      intro k' hk'
      exact ht c r k' rfl hc hk'
    · cases hu

/-- **The search is sound**: where a run of promising threads ends, there the patterns can come to. -/
theorem run_sound {ps : List Pattern} {k : Place} {stop : Nat} {m : Marks} (r : Text) :
    ∀ {l : Text} {threads : List Thread} {best : Option (Nat × Marks)},
      (∀ t ∈ threads, Pattern.Promises ps k l r t) →
      (best = some (stop, m) → ∃ l' r', stop = Text.size l' ∧ Pattern.ReadsAll ps k ⟨l', r', m⟩) →
      run l.size threads best r = some (stop, m) →
      ∃ l' r', stop = Text.size l' ∧ Pattern.ReadsAll ps k ⟨l', r', m⟩ := by
  -- what ends here is a way, and so is what ended before
  have hbest : ∀ {l r : Text} {threads : List Thread} {best : Option (Nat × Marks)},
      (∀ t ∈ threads, Pattern.Promises ps k l r t) →
      (best = some (stop, m) → ∃ l' r', stop = Text.size l' ∧ Pattern.ReadsAll ps k ⟨l', r', m⟩) →
      ((finished? threads).map (l.size, ·)).or best = some (stop, m) →
      ∃ l' r', stop = Text.size l' ∧ Pattern.ReadsAll ps k ⟨l', r', m⟩ := by
    intro l r threads best hthreads hold h
    cases hf : finished? threads with
    | none =>
      rw [hf] at h
      exact hold h
    | some m' =>
      rw [hf] at h
      cases h
      exact ⟨l, r, rfl, hthreads _ (done_mem_of_finished? hf)⟩
  induction r with
  | nil =>
    intro l threads best hthreads hold h
    exact hbest hthreads hold h
  | cons c r ih =>
    intro l threads best hthreads hold h
    rw [run] at h
    split at h
    · exact hbest hthreads hold h
    · have hl : l.size + c.utf8Size = Text.size (l ++ [c]) := by simp
      dsimp only at h
      rw [hl] at h
      refine ih ?_ (fun hold' => hbest hthreads hold hold') h
      intro u hu
      obtain ⟨t, ht, hu⟩ := List.mem_flatMap.mp (mem_of_mem_settle hu)
      rw [← hl] at hu
      exact feed_sound (hthreads t ht) hu

end Thread

namespace Pattern

/-! ### Matches -/

theorem reads_of_matchAt? {p : Pattern} {l r : Text} {m : Match}
    (h : p.matchAt? l.getLast? l.size r = some m) :
    ∃ l' r', m.span = ⟨l.size, Text.size l'⟩ ∧ Reads p ⟨l, r, []⟩ ⟨l', r', m.marks⟩ := by
  rw [matchAt?, Option.map_eq_some_iff] at h
  obtain ⟨⟨stop, marks⟩, hrun, rfl⟩ := h
  have hpromises : ∀ t ∈ Thread.settle [] (threadsOf (Place.spot ⟨l, r, []⟩) [p] []),
      Promises [p] ⟨l, r, []⟩ l r t := fun t ht => threadsOf_sound [p] (Thread.mem_of_mem_settle ht)
  obtain ⟨l', r', rfl, hreads⟩ := Thread.run_sound r hpromises (by intro h; cases h) hrun
  refine ⟨l', r', rfl, ?_⟩
  cases hreads with
  | cons hp hrest =>
    cases hrest
    exact hp

/-- A match that is found is one that starts at some place of the text. -/
theorem exists_matchAt?_of_mem_findAllFrom {p : Pattern} {m : Match} (r : Text) :
    ∀ {skip : Nat} {l : Text}, m ∈ p.findAllFrom skip l.getLast? l.size r →
      ∃ l' r', l ++ r = l' ++ r' ∧ p.matchAt? (List.getLast? l') (Text.size l') r' = some m := by
  induction r with
  | nil =>
    intro skip l hm
    rw [findAllFrom] at hm
    split_ifs at hm
    · cases hm
    · exact ⟨l, [], rfl, Option.mem_toList.mp hm⟩
  | cons c r ih =>
    intro skip l hm
    have hnext : ∀ {skip : Nat}, m ∈ p.findAllFrom skip (some c) (l.size + c.utf8Size) r →
        ∃ l' r', l ++ c :: r = l' ++ r' ∧ p.matchAt? (List.getLast? l') (Text.size l') r' = some m := by
      intro skip hm
      have hl : some c = (l ++ [c]).getLast? ∧ l.size + c.utf8Size = Text.size (l ++ [c]) := by simp
      rw [hl.1, hl.2] at hm
      obtain ⟨l', r', hsplit, hmatch⟩ := ih hm
      exact ⟨l', r', by rw [← hsplit]; simp, hmatch⟩
    rw [findAllFrom] at hm
    split_ifs at hm
    · exact hnext hm
    · split at hm
      · rename_i m' hmatch
        rcases List.mem_cons.mp hm with rfl | hm
        · exact ⟨l, c :: r, rfl, hmatch⟩
        · exact hnext hm
      · exact hnext hm

theorem exists_matchAt?_of_mem_findAll {p : Pattern} {text : Text} {m : Match} (h : m ∈ p.findAll text) :
    ∃ l r, text = l ++ r ∧ p.matchAt? (List.getLast? l) (Text.size l) r = some m :=
  exists_matchAt?_of_mem_findAllFrom (l := []) text h

end Pattern

end CodeAtlas
