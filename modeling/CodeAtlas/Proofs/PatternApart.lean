import CodeAtlas.Proofs.PatternFinds

/-!
# Patterns that do not match at one place

Whether two patterns can both read on from one place is decided by reading with both at once: as long as neither can
end, each character leads from a pair of states to another. If no pair that is met in this way lets one of them end,
they never match at the same place.

* `CharClass.meets`: whether two classes may share a character;
* `Pattern.firstsOf`: the states in which some patterns can wait for their first character;
* `Pattern.apart`: a check on the pairs of states that are met;
* `Pattern.not_reads_of_apart`: patterns that pass it do not both read on from one place.
-/

namespace CodeAtlas

namespace CharClass

/-- Whether a part of a class may share a character with a class. -/
def Item.meets (cls : CharClass) : Item → Bool
  | .char c => cls.contains c
  | _ => true

/-- Whether two classes may share a character. Only a class of single characters is looked at closely. -/
def meets (a b : CharClass) : Bool :=
  (a.negated || a.items.any (·.meets b)) && (b.negated || b.items.any (·.meets a))

theorem any_meets_of_contains {a b : CharClass} {c : Char} (ha : a.contains c = true) (hb : b.contains c = true) :
    (a.negated || a.items.any (·.meets b)) = true := by
  cases hnegated : a.negated with
  | true => rfl
  | false =>
    rw [contains, hnegated, Bool.bne_false, List.any_eq_true] at ha
    obtain ⟨item, hitem, hc⟩ := ha
    rw [Bool.false_or, List.any_eq_true]
    refine ⟨item, hitem, ?_⟩
    cases item with
    | char d =>
      rw [Item.contains, beq_iff_eq] at hc
      rw [Item.meets, ← hc]
      exact hb
    | _ => rfl

theorem meets_of_contains {a b : CharClass} {c : Char} (ha : a.contains c = true) (hb : b.contains c = true) :
    a.meets b = true := by
  rw [meets, any_meets_of_contains ha hb, any_meets_of_contains hb ha]
  rfl

end CharClass

namespace Pattern

/-! ### First states -/

/-- The states in which a thread of a pattern can wait for its first character, with `rest` behind the pattern. -/
def firsts : Pattern → List Pattern → List Wait
  | char position cls, rest => [⟨position, cls, rest⟩]
  | seq a b, rest => a.firsts (b :: rest) ++ if a.skips [] then b.firsts rest else []
  | choice a b, rest => a.firsts rest ++ b.firsts rest
  | many greedy body, rest => body.firsts (many greedy body :: rest)
  | _, _ => []

/-- The states in which a thread of some patterns can wait for its first character. -/
def firstsOf : List Pattern → List Wait
  | [] => []
  | p :: rest => p.firsts rest ++ if p.skips [] then firstsOf rest else []

theorem wait_mem_firsts {spot : Spot} {position : Nat} {cls : CharClass} {after : List Pattern} {m' : Marks}
    (p : Pattern) :
    ∀ {rest : List Pattern} {next : Marks → List Thread} {m : Marks},
      .wait position cls after m' ∈ p.threads spot rest next m →
      ⟨position, cls, after⟩ ∈ p.firsts rest ∨
        p.skips [] = true ∧ ∃ n, .wait position cls after m' ∈ next n := by
  induction p with
  | empty => intro rest next m ht; exact .inr ⟨rfl, m, ht⟩
  | char position' cls' =>
    intro rest next m ht
    rw [threads, List.mem_singleton] at ht
    cases ht
    exact .inl (List.mem_singleton_self _)
  | seq a b iha ihb =>
    intro rest next m ht
    rw [firsts, List.mem_append]
    rcases iha ht with ht | ⟨hskips, n, ht⟩
    · exact .inl (.inl ht)
    · rw [if_pos hskips]
      rcases ihb ht with ht | ⟨hskips', ht⟩
      · exact .inl (.inr ht)
      · exact .inr ⟨by rw [skips, hskips, hskips']; rfl, ht⟩
  | choice a b iha ihb =>
    intro rest next m ht
    rw [firsts, List.mem_append, skips]
    rcases List.mem_append.mp ht with ht | ht
    · rcases iha ht with ht | ⟨hskips, ht⟩
      · exact .inl (.inl ht)
      · exact .inr ⟨by rw [hskips, Bool.true_or], ht⟩
    · rcases ihb ht with ht | ⟨hskips, ht⟩
      · exact .inl (.inr ht)
      · exact .inr ⟨by rw [hskips, Bool.or_true], ht⟩
  | many greedy body ih =>
    intro rest next m ht
    have hmem : .wait position cls after m' ∈
          body.threads spot (many greedy body :: rest) (fun _ => []) m ∨
        .wait position cls after m' ∈ next m := by
      cases greedy with
      | true => exact List.mem_append.mp ht
      | false => exact (List.mem_append.mp ht).symm
    rcases hmem with ht | ht
    · rcases ih ht with ht | ⟨-, n, hnil⟩
      · exact .inl ht
      · cases hnil
    · exact .inr ⟨rfl, m, ht⟩
  | mark slot => intro rest next m ht; exact .inr ⟨rfl, _, ht⟩
  | lineStart =>
    intro rest next m ht
    rw [threads] at ht
    split_ifs at ht
    · exact .inr ⟨rfl, m, ht⟩
    · cases ht
  | wordEdge =>
    intro rest next m ht
    rw [threads] at ht
    split_ifs at ht
    · exact .inr ⟨rfl, m, ht⟩
    · cases ht

theorem wait_mem_firstsOf {spot : Spot} {position : Nat} {cls : CharClass} {after : List Pattern} {m' : Marks}
    (ps : List Pattern) :
    ∀ {m : Marks}, .wait position cls after m' ∈ threadsOf spot ps m → ⟨position, cls, after⟩ ∈ firstsOf ps := by
  induction ps with
  | nil =>
    intro m ht
    rw [threadsOf, List.mem_singleton] at ht
    cases ht
  | cons p rest ih =>
    intro m ht
    rw [firstsOf, List.mem_append]
    rcases wait_mem_firsts p ht with ht | ⟨hskips, n, ht⟩
    · exact .inl ht
    · rw [if_pos hskips]
      exact .inr (ih ht)

/-- A way that cannot end at once reads a character in one of the first states, and goes on from there. -/
theorem ReadsAll.exists_first {ps : List Pattern} {l r : Text} {m : Marks} {k : Place} (h : ReadsAll ps ⟨l, r, m⟩ k)
    (hps : ps.all (skips []) = false) :
    ∃ w ∈ firstsOf ps, w ∈ waitsOf ps ∧ ∃ c r', r = c :: r' ∧ w.cls.contains c = true ∧
      ∃ m' k', ReadsAll w.rest ⟨l ++ [c], r', m'⟩ k' := by
  obtain ⟨t, ht, hleads⟩ := h.exists_thread m
  cases t with
  | done m' =>
    rw [skips_of_done_mem ht] at hps
    cases hps
  | wait position cls rest m' =>
    obtain ⟨c, r', k', hr, hc, hreads⟩ := hleads
    exact ⟨⟨position, cls, rest⟩, wait_mem_firstsOf ps ht, wait_mem_threadsOf ps ht, c, r', hr, hc, m', k', hreads⟩

/-! ### Pairs of states -/

/-- The pairs of first states of two lists of patterns that may read the same character. -/
def meetings (ps qs : List Pattern) : List (Wait × Wait) :=
  ((firstsOf ps).flatMap fun w => (firstsOf qs).map fun v => (w, v)).filter fun pair => pair.1.cls.meets pair.2.cls

/-- The positions of the pairs that are met from some pairs on, as far as the fuel goes. -/
def pairsFrom : Nat → List (Wait × Wait) → List (Nat × Nat) → List (Nat × Nat)
  | 0, _, seen => seen
  | _, [], seen => seen
  | fuel + 1, (w, v) :: others, seen =>
    if seen.contains (w.position, v.position) then pairsFrom fuel others seen
    else pairsFrom fuel (meetings w.rest v.rest ++ others) ((w.position, v.position) :: seen)

/-- Whether neither of two lists of patterns can end, and both read a first character only in the given pairs. -/
def goOn (pairs : List (Nat × Nat)) (ps qs : List Pattern) : Bool :=
  !ps.all (skips []) && !qs.all (skips []) &&
    (meetings ps qs).all fun pair => pairs.contains (pair.1.position, pair.2.position)

/-- Whether two patterns go on in pairs of states from which they go on in such pairs again. -/
def closed (pairs : List (Nat × Nat)) (p q : Pattern) : Bool :=
  goOn pairs [p] [q] && pairs.all fun pair =>
    (waitsOf [p]).all fun w => w.position != pair.1 ||
      (waitsOf [q]).all fun v => v.position != pair.2 || goOn pairs w.rest v.rest

/-- Whether reading with two patterns at once never comes to a place at which one of them can end. -/
def apart (p q : Pattern) : Bool :=
  closed (pairsFrom 1000 (meetings [p] [q]) []) p q

theorem goOn_of_closed {pairs : List (Nat × Nat)} {p q : Pattern} {w v : Wait} (h : closed pairs p q = true)
    (hw : w ∈ waitsOf [p]) (hv : v ∈ waitsOf [q]) (hpair : (w.position, v.position) ∈ pairs) :
    goOn pairs w.rest v.rest = true := by
  rw [closed, Bool.and_eq_true, List.all_eq_true] at h
  have hstates := h.2 _ hpair
  rw [List.all_eq_true] at hstates
  have hfirst := hstates w hw
  rw [bne_self_eq_false, Bool.false_or, List.all_eq_true] at hfirst
  have hsecond := hfirst v hv
  rwa [bne_self_eq_false, Bool.false_or] at hsecond

/-- **Reading on in pairs**: along a common text, both never end. -/
theorem not_readsAll_of_closed {pairs : List (Nat × Nat)} {p q : Pattern} (h : closed pairs p q = true) (r : Text) :
    ∀ {l : Text} {ps qs : List Pattern} {m m' : Marks} {k k' : Place}, goOn pairs ps qs = true →
      waitsOf ps ⊆ waitsOf [p] → waitsOf qs ⊆ waitsOf [q] →
      ReadsAll ps ⟨l, r, m⟩ k → ReadsAll qs ⟨l, r, m'⟩ k' → False := by
  induction r with
  | nil =>
    intro l ps qs m m' k k' hgo hps hqs hp hq
    rw [goOn, Bool.and_eq_true, Bool.and_eq_true, Bool.not_eq_true'] at hgo
    obtain ⟨w, -, -, c, r', hr, -⟩ := hp.exists_first hgo.1.1
    cases hr
  | cons c r ih =>
    intro l ps qs m m' k k' hgo hps hqs hp hq
    rw [goOn, Bool.and_eq_true, Bool.and_eq_true, Bool.not_eq_true', Bool.not_eq_true', List.all_eq_true] at hgo
    obtain ⟨⟨hends, hends'⟩, hmeet⟩ := hgo
    obtain ⟨w, hfirst, hw, d, r', hr, hd, n, j, hreads⟩ := hp.exists_first hends
    cases hr
    obtain ⟨v, hfirst', hv, d', r'', hr', hd', n', j', hreads'⟩ := hq.exists_first hends'
    cases hr'
    have hmem : (w, v) ∈ meetings ps qs := by
      rw [meetings, List.mem_filter, List.mem_flatMap]
      exact ⟨⟨w, hfirst, List.mem_map.mpr ⟨v, hfirst', rfl⟩⟩, CharClass.meets_of_contains hd hd'⟩
    have hpair := List.contains_iff_mem.mp (hmeet _ hmem)
    have hw' := hps hw
    have hv' := hqs hv
    exact ih (goOn_of_closed h hw' hv' hpair) (waitsOf_rest_subset_of_mem [p] hw')
      (waitsOf_rest_subset_of_mem [q] hv') hreads hreads'

/-- **Patterns that are apart do not both read on from one place.** -/
theorem not_reads_of_apart {p q : Pattern} (h : apart p q = true) {l r : Text} {m m' : Marks} {k k' : Place}
    (hp : Reads p ⟨l, r, m⟩ k) (hq : Reads q ⟨l, r, m'⟩ k') : False := by
  have hgo := (Bool.and_eq_true_iff.mp h).1
  exact not_readsAll_of_closed h r hgo (List.Subset.refl _) (List.Subset.refl _) (.cons hp (.nil _)) (.cons hq (.nil _))

end Pattern

end CodeAtlas
