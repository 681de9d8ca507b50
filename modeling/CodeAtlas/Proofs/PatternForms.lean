import CodeAtlas.Proofs.HeaderFindings
import CodeAtlas.Proofs.Identifiers
import CodeAtlas.Proofs.PatternFinds

/-!
# What the parts of a pattern read

A header is made of words, gaps and names. For each way to put patterns together, this file says which stretches of a
text the whole reads, so that a header can be taken apart and put together again.

* `Pattern.records`: a match records a slot, whatever way it takes;
* `Pattern.reads_numbered_iff`: numbers do not change what a pattern reads;
* `Pattern.Spans`: a pattern reads a stretch between two texts;
* `Pattern.matchAt?_eq_none`, `Pattern.exists_matchAt?_of_spans`: the match at a place, by what is read there;
* `Text.IsPadding`, `Text.IsWordRun`: gaps, and words with gaps behind them.
-/

namespace CodeAtlas

/-! ### Gaps and words -/

namespace Text

/-- The text is made of spaces and tabs. -/
def IsPadding (text : Text) : Prop :=
  ∀ c ∈ text, c = ' ' ∨ c = '\t'

/-- The text is made of at least one space or tab. -/
def IsSpace (text : Text) : Prop :=
  text ≠ [] ∧ text.IsPadding

/-- Words of a list, each with a space behind it. -/
inductive IsWordRun (words : List String) : Text → Prop
  | nil : IsWordRun words []
  | cons {word : String} {s rest : Text} (hword : word ∈ words) (hs : s.IsSpace) (hrest : IsWordRun words rest) :
      IsWordRun words (word.toList ++ (s ++ rest))

theorem IsWordRun.append {words : List String} {text text' : Text} (h : text.IsWordRun words)
    (h' : text'.IsWordRun words) : IsWordRun words (text ++ text') := by
  induction h with
  | nil => exact h'
  | cons hword hs _ ih =>
    rw [List.append_assoc, List.append_assoc]
    exact .cons hword hs ih

theorem IsWordRun.mono {words words' : List String} {text : Text} (h : text.IsWordRun words)
    (hsub : words ⊆ words') : text.IsWordRun words' := by
  induction h with
  | nil => exact .nil
  | cons hword hs _ ih => exact .cons (hsub hword) hs ih

end Text

namespace Pattern

/-! ### Groups that every match has -/

/-- Whether every way through a pattern records a slot. -/
def records (slot : Nat) : Pattern → Bool
  | seq a b => a.records slot || b.records slot
  | choice a b => a.records slot && b.records slot
  | mark recorded => recorded == slot
  | _ => false

theorem Reads.exists_lookup {p : Pattern} {k k' : Place} {slot : Nat} (h : Reads p k k')
    (hp : p.records slot = true ∨ ∃ offset, k.marks.lookup slot = some offset) :
    ∃ offset, k'.marks.lookup slot = some offset := by
  induction h with
  | empty k => exact hp.resolve_left Bool.false_ne_true
  | char position hc l r m => exact hp.resolve_left Bool.false_ne_true
  | seq _ _ ih ih' =>
    rw [records, Bool.or_eq_true] at hp
    rcases hp with (hp | hp) | hp
    · exact ih' (.inr (ih (.inl hp)))
    · exact ih' (.inl hp)
    · exact ih' (.inr (ih (.inr hp)))
  | left _ ih => exact ih (hp.imp_left fun hp => (Bool.and_eq_true_iff.mp hp).1)
  | right _ ih => exact ih (hp.imp_left fun hp => (Bool.and_eq_true_iff.mp hp).2)
  | stop greedy body k => exact hp.resolve_left Bool.false_ne_true
  | round _ _ ih ih' => exact ih' (.inr (ih (.inr (hp.resolve_left Bool.false_ne_true))))
  | mark recorded l r m =>
    by_cases hslot : slot = recorded
    · exact ⟨l.size, by rw [hslot]; exact List.lookup_cons_self⟩
    · obtain ⟨offset, hoffset⟩ := hp.resolve_left fun hp => hslot (beq_iff_eq.mp hp).symm
      exact ⟨offset, by rw [List.lookup_cons, beq_eq_false_iff_ne.mpr hslot]; exact hoffset⟩
  | lineStart _ => exact hp.resolve_left Bool.false_ne_true
  | wordEdge _ => exact hp.resolve_left Bool.false_ne_true

theorem Reads.exists_between {a b : Pattern} {k k' : Place} (h : Reads (a ++ b) k k') :
    ∃ k₁, Reads a k k₁ ∧ Reads b k₁ k' := by
  cases h with
  | seq first second => exact ⟨_, first, second⟩

/-- A group that every way records is a group of every match. -/
theorem Finds.exists_group {p : Pattern} {text : Text} {m : Match} (h : p.Finds text m) (number : Nat)
    (hstart : p.records (2 * number) = true) (hstop : p.records (2 * number + 1) = true) :
    ∃ span, m.group? number = some span := by
  obtain ⟨l, r, l', r', -, -, hreads⟩ := h
  obtain ⟨start, hstart⟩ := hreads.exists_lookup (.inl hstart)
  obtain ⟨stop, hstop⟩ := hreads.exists_lookup (.inl hstop)
  dsimp only at hstart hstop
  exact ⟨⟨start, stop⟩, by rw [Match.group?, hstart, hstop]⟩

/-- A group records where it starts and ends. -/
theorem Reads.group_marks {number : Nat} {p : Pattern} {k k' : Place} (h : Reads (group number p) k k')
    (hp : p.unmarked = true) :
    k'.marks = (2 * number + 1, k'.before.size) :: (2 * number, k.before.size) :: k.marks := by
  cases h with
  | seq hopen hrest =>
    cases hopen with
    | mark _ l r m =>
      cases hrest with
      | seq hbody hclose =>
        cases hclose with
        | mark _ l' r' m' =>
          have hmarks := hbody.marks_eq hp
          dsimp only at hmarks
          rw [hmarks]

/-! ### Numbers -/

theorem Reads.many_mono {a b : Pattern} {greedy : Bool} {k k' : Place} (hab : ∀ k k', Reads a k k' → Reads b k k')
    (h : Reads (many greedy a) k k') : Reads (many greedy b) k k' := by
  generalize hp : many greedy a = p at h
  induction h with
  | stop greedy' body k => cases hp; exact .stop greedy b k
  | round hfirst _ _ ih => cases hp; exact .round (hab _ _ hfirst) (ih rfl)
  | _ => cases hp

/-- Numbers do not change what a pattern reads. -/
theorem reads_numberFrom_iff (p : Pattern) :
    ∀ {start : Nat} {k k' : Place}, Reads (numberFrom start p).1 k k' ↔ Reads p k k' := by
  induction p with
  | char position cls =>
    intro start k k'
    constructor
    · intro h; cases h with | char _ hc l r m => exact .char position hc l r m
    · intro h; cases h with | char _ hc l r m => exact .char start hc l r m
  | seq a b iha ihb =>
    intro start k k'
    constructor
    · intro h; cases h with | seq ha hb => exact .seq (iha.mp ha) (ihb.mp hb)
    · intro h; cases h with | seq ha hb => exact .seq (iha.mpr ha) (ihb.mpr hb)
  | choice a b iha ihb =>
    intro start k k'
    constructor
    · intro h
      cases h with
      | left ha => exact .left (iha.mp ha)
      | right hb => exact .right (ihb.mp hb)
    · intro h
      cases h with
      | left ha => exact .left (iha.mpr ha)
      | right hb => exact .right (ihb.mpr hb)
  | many greedy body ih =>
    intro start k k'
    exact ⟨Reads.many_mono fun _ _ => ih.mp, Reads.many_mono fun _ _ => ih.mpr⟩
  | _ => intro start k k'; exact Iff.rfl

theorem reads_numbered_iff {p : Pattern} {k k' : Place} : Reads p.numbered k k' ↔ Reads p k k' :=
  reads_numberFrom_iff p

/-! ### Stretches -/

/-- The pattern reads the stretch `w` between `l` and `r`. -/
def Spans (p : Pattern) (l w r : Text) : Prop :=
  ∃ m m', Reads p ⟨l, w ++ r, m⟩ ⟨l ++ w, r, m'⟩

variable {l w r : Text}

theorem Reads.exists_spans {p : Pattern} {k k' : Place} (h : Reads p k k') :
    ∃ w, k'.before = k.before ++ w ∧ k.after = w ++ k'.after ∧ p.Spans k.before w k'.after := by
  obtain ⟨w, hbefore, hafter⟩ := h.exists_read
  refine ⟨w, hbefore, hafter, k.marks, k'.marks, ?_⟩
  rw [← hbefore, ← hafter]
  exact h

theorem Spans.exists_reads {p : Pattern} (h : p.Spans l w r) (m : Marks) :
    ∃ m', Reads p ⟨l, w ++ r, m⟩ ⟨l ++ w, r, m'⟩ := by
  obtain ⟨m₀, m₀', hreads⟩ := h
  exact hreads.remark m

theorem spans_numbered {p : Pattern} : p.numbered.Spans l w r ↔ p.Spans l w r :=
  exists₂_congr fun _ _ => reads_numbered_iff

theorem append_eq_seq (a b : Pattern) : a ++ b = seq a b := rfl

theorem or_eq_choice (a b : Pattern) : a ||| b = choice a b := rfl

@[simp] theorem spans_empty : empty.Spans l w r ↔ w = [] := by
  constructor
  · rintro ⟨m, m', h⟩
    generalize hk : (⟨l ++ w, r, m'⟩ : Place) = k' at h
    cases h
    exact List.append_right_eq_self.mp (congrArg Place.before hk)
  · rintro rfl
    exact ⟨[], [], by simpa using Reads.empty _⟩

theorem spans_seq {a b : Pattern} :
    (seq a b).Spans l w r ↔ ∃ u v, w = u ++ v ∧ a.Spans l u (v ++ r) ∧ b.Spans (l ++ u) v r := by
  constructor
  · rintro ⟨m, m', h⟩
    cases h with
    | seq ha hb =>
      obtain ⟨u, hu, hu', hspans⟩ := ha.exists_spans
      obtain ⟨v, hv, hv', hspans'⟩ := hb.exists_spans
      dsimp only at hu hu' hv hv' hspans hspans'
      rw [hv'] at hu' hspans
      rw [hu] at hv hspans'
      have hw : w = u ++ v := List.append_cancel_right (by rw [hu', List.append_assoc])
      exact ⟨u, v, hw, hspans, hspans'⟩
  · rintro ⟨u, v, rfl, ⟨m, m', ha⟩, hb⟩
    obtain ⟨m'', hb⟩ := hb.exists_reads m'
    rw [← List.append_assoc] at ha
    rw [List.append_assoc] at hb
    exact ⟨m, m'', .seq ha hb⟩

theorem Spans.append {a b : Pattern} {l u v r : Text} (ha : a.Spans l u (v ++ r)) (hb : b.Spans (l ++ u) v r) :
    (a ++ b).Spans l (u ++ v) r :=
  spans_seq.mpr ⟨u, v, rfl, ha, hb⟩

theorem spans_choice {a b : Pattern} : (choice a b).Spans l w r ↔ a.Spans l w r ∨ b.Spans l w r := by
  constructor
  · rintro ⟨m, m', h⟩
    cases h with
    | left ha => exact .inl ⟨m, m', ha⟩
    | right hb => exact .inr ⟨m, m', hb⟩
  · rintro (⟨m, m', ha⟩ | ⟨m, m', hb⟩)
    · exact ⟨m, m', .left ha⟩
    · exact ⟨m, m', .right hb⟩

theorem spans_char {position : Nat} {cls : CharClass} :
    (char position cls).Spans l w r ↔ ∃ c, w = [c] ∧ cls.contains c = true := by
  constructor
  · rintro ⟨m, m', h⟩
    generalize hk : (⟨l, w ++ r, m⟩ : Place) = k at h
    generalize hk' : (⟨l ++ w, r, m'⟩ : Place) = k' at h
    cases h with
    | @char _ _ c hc l₁ r₁ m₁ =>
      have hl : l = l₁ := congrArg Place.before hk
      have hl' : l ++ w = l₁ ++ [c] := congrArg Place.before hk'
      exact ⟨c, List.append_cancel_left (hl'.trans (by rw [hl])), hc⟩
  · rintro ⟨c, rfl, hc⟩
    exact ⟨[], [], .char position hc l r []⟩

theorem spans_one {cls : CharClass} : (one cls).Spans l w r ↔ ∃ c, w = [c] ∧ cls.contains c = true :=
  spans_char

@[simp] theorem spans_mark {slot : Nat} : (mark slot).Spans l w r ↔ w = [] := by
  constructor
  · rintro ⟨m, m', h⟩
    generalize hk : (⟨l, w ++ r, m⟩ : Place) = k at h
    generalize hk' : (⟨l ++ w, r, m'⟩ : Place) = k' at h
    cases h with
    | mark _ l₁ r₁ m₁ =>
      have hl : l = l₁ := congrArg Place.before hk
      have hl' : l ++ w = l₁ := congrArg Place.before hk'
      exact List.append_right_eq_self.mp (hl'.trans hl.symm)
  · rintro rfl
    exact ⟨[], [(slot, l.size)], by simpa using Reads.mark slot l r []⟩

@[simp] theorem spans_lineStart :
    lineStart.Spans l w r ↔ w = [] ∧ (Place.spot ⟨l, r, []⟩).startsLine = true := by
  constructor
  · rintro ⟨m, m', h⟩
    generalize hk : (⟨l, w ++ r, m⟩ : Place) = k at h
    generalize hk' : (⟨l ++ w, r, m'⟩ : Place) = k' at h
    cases h with
    | lineStart hline =>
      subst hk
      have hw : w = [] := List.append_right_eq_self.mp (congrArg Place.before hk')
      subst hw
      exact ⟨rfl, hline⟩
  · rintro ⟨rfl, hline⟩
    exact ⟨[], [], by simpa using Reads.lineStart (k := ⟨l, r, []⟩) hline⟩

@[simp] theorem spans_wordEdge :
    wordEdge.Spans l w r ↔ w = [] ∧ (Place.spot ⟨l, r, []⟩).isWordEdge = true := by
  constructor
  · intro h
    obtain ⟨m, m', h⟩ := h
    generalize hk : (⟨l, w ++ r, m⟩ : Place) = k at h
    generalize hk' : (⟨l ++ w, r, m'⟩ : Place) = k' at h
    cases h with
    | wordEdge hedge =>
      subst hk
      have hw : w = [] := List.append_right_eq_self.mp (congrArg Place.before hk')
      subst hw
      exact ⟨rfl, hedge⟩
  · intro h
    obtain ⟨rfl, hedge⟩ := h
    exact ⟨[], [], by simpa using Reads.wordEdge (k := ⟨l, r, []⟩) hedge⟩

theorem spans_opt {p : Pattern} : (opt p).Spans l w r ↔ p.Spans l w r ∨ w = [] := by
  rw [opt, spans_choice, spans_empty]

theorem spans_group {number : Nat} {p : Pattern} : (group number p).Spans l w r ↔ p.Spans l w r := by
  simp only [group, spans_seq, spans_mark]
  constructor
  · rintro ⟨_, _, rfl, rfl, _, _, rfl, h, rfl⟩
    simpa using h
  · intro h
    exact ⟨[], w, rfl, rfl, w, [], by simp, by simpa using h, rfl⟩

/-- The characters of a text, one after the other. -/
theorem spans_chars (text : Text) :
    ∀ {l w : Text}, (text.foldr (fun c rest => seq (one ⟨[.char c], false⟩) rest) empty).Spans l w r ↔ w = text := by
  induction text with
  | nil => intro l w; exact spans_empty
  | cons c text ih =>
    intro l w
    have hc : ∀ d, CharClass.contains ⟨[.char c], false⟩ d = true ↔ d = c := by
      intro d
      simp [CharClass.contains, CharClass.Item.contains]
    simp only [List.foldr_cons, spans_seq, spans_one, ih, hc]
    constructor
    · rintro ⟨_, _, rfl, ⟨_, rfl, rfl⟩, rfl⟩
      rfl
    · rintro rfl
      exact ⟨[c], text, rfl, ⟨c, rfl, rfl⟩, rfl⟩

theorem spans_lit {s : String} : (lit s).Spans l w r ↔ w = s.toList :=
  spans_chars s.toList

theorem spans_anyOf (words : List String) (hne : words ≠ []) :
    (anyOf words).Spans l w r ↔ ∃ word ∈ words, w = word.toList := by
  induction words with
  | nil => exact absurd rfl hne
  | cons word others ih =>
    cases others with
    | nil => rw [anyOf, spans_lit]; simp
    | cons other others =>
      rw [anyOf, spans_choice, spans_lit, ih (List.cons_ne_nil _ _)]
      · simp
      · intro h; cases h

/-- What holds of no round and goes on through rounds holds of all rounds. -/
theorem Spans.many_rec {greedy : Bool} {body : Pattern} {P : Text → Prop} (hnil : P [])
    (hround : ∀ l u v r, body.Spans l u r → P v → P (u ++ v)) (h : (many greedy body).Spans l w r) : P w := by
  obtain ⟨m, m', h⟩ := h
  have hread : ∀ {k k' : Place} {p : Pattern}, Reads p k k' → p = many greedy body →
      ∃ w, k'.before = k.before ++ w ∧ P w := by
    intro k k' p hreads hp
    induction hreads with
    | stop _ _ k => exact ⟨[], by simp, hnil⟩
    | round hfirst _ _ ih =>
      cases hp
      obtain ⟨u, hu, -, hspans⟩ := hfirst.exists_spans
      obtain ⟨v, hv, hP⟩ := ih rfl
      exact ⟨u ++ v, by rw [hv, hu, List.append_assoc], hround _ _ _ _ hspans hP⟩
    | _ => cases hp
  obtain ⟨w', hw', hP⟩ := hread h rfl
  rwa [List.append_cancel_left hw']

theorem spans_many_nil {greedy : Bool} {body : Pattern} : (many greedy body).Spans l [] r :=
  ⟨[], [], by simpa using Reads.stop greedy body ⟨l, r, []⟩⟩

theorem Spans.round {greedy : Bool} {body : Pattern} {u v : Text} (h : body.Spans l u (v ++ r))
    (h' : (many greedy body).Spans (l ++ u) v r) : (many greedy body).Spans l (u ++ v) r := by
  obtain ⟨m, m', hreads⟩ := h
  obtain ⟨m'', hreads'⟩ := h'.exists_reads m'
  rw [← List.append_assoc] at hreads
  rw [List.append_assoc] at hreads'
  exact ⟨m, m'', .round hreads hreads'⟩

/-- A repetition of a class reads characters of the class. -/
theorem spans_star_one {cls : CharClass} (w : Text) :
    ∀ {l : Text}, (star (one cls)).Spans l w r ↔ ∀ c ∈ w, cls.contains c = true := by
  intro l
  constructor
  · intro h
    refine Spans.many_rec (P := fun w => ∀ c ∈ w, cls.contains c = true) (by simp) ?_ h
    intro l u v r hu hv c hc
    obtain ⟨d, rfl, hd⟩ := spans_one.mp hu
    rcases List.mem_append.mp hc with hc | hc
    · rwa [List.mem_singleton.mp hc]
    · exact hv c hc
  · intro h
    induction w generalizing l with
    | nil => exact spans_many_nil
    | cons c w ih =>
      exact Spans.round (u := [c]) (spans_one.mpr ⟨c, rfl, h c List.mem_cons_self⟩)
        (ih fun d hd => h d (List.mem_cons_of_mem c hd))

/-! ### Matches and stretches -/

/-- Where a pattern reads no stretch, there is no match. -/
theorem matchAt?_eq_none {p : Pattern} {text : Text} (h : ∀ w r, text = w ++ r → ¬p.Spans l w r) :
    p.matchAt? l.getLast? l.size text = none := by
  cases hm : p.matchAt? l.getLast? l.size text with
  | none => rfl
  | some m =>
    obtain ⟨l', r, -, hreads⟩ := reads_of_matchAt? hm
    obtain ⟨w, -, hafter, hspans⟩ := hreads.exists_spans
    exact absurd hspans (h w r hafter)

/-- Where a pattern reads one stretch and no other, the match is that stretch. -/
theorem exists_matchAt?_of_spans {p : Pattern} (h : p.numbered.Spans l w r)
    (hunique : ∀ w' r', w ++ r = w' ++ r' → p.numbered.Spans l w' r' → w' = w) :
    ∃ m, p.numbered.matchAt? l.getLast? l.size (w ++ r) = some m ∧ m.span = ⟨l.size, Text.size (l ++ w)⟩ ∧
      Reads p ⟨l, w ++ r, []⟩ ⟨l ++ w, r, m.marks⟩ := by
  obtain ⟨marks, hreads⟩ := h.exists_reads []
  obtain ⟨m, hm⟩ := exists_matchAt?_of_reads hreads
  obtain ⟨l', r', hspan, hfound⟩ := reads_of_matchAt? hm
  obtain ⟨w', hbefore, hafter, hspans⟩ := hfound.exists_spans
  dsimp only at hbefore hafter hspans
  obtain rfl := hunique w' r' hafter hspans
  obtain rfl := List.append_cancel_left hafter
  subst hbefore
  exact ⟨m, hm, hspan, reads_numbered_iff.mp hfound⟩

/-! ### Gaps, words and names -/

theorem contains_gap (c : Char) : (CharClass.oneOf " \t").contains c = true ↔ c = ' ' ∨ c = '\t' := by
  simp [CharClass.contains, CharClass.oneOf, CharClass.Item.contains]

theorem spans_gap : gap.Spans l w r ↔ w.IsPadding := by
  rw [gap, oneOf, spans_star_one]
  exact forall₂_congr fun c _ => contains_gap c

theorem spans_space : space.Spans l w r ↔ w.IsSpace := by
  rw [space, plus, oneOf, spans_seq]
  constructor
  · rintro ⟨u, v, rfl, hu, hv⟩
    obtain ⟨c, rfl, hc⟩ := spans_one.mp hu
    refine ⟨by simp, ?_⟩
    intro d hd
    rcases List.mem_append.mp hd with hd | hd
    · rw [List.mem_singleton.mp hd]
      exact (contains_gap c).mp hc
    · exact (contains_gap d).mp ((spans_star_one v).mp hv d hd)
  · rintro ⟨hne, hgap⟩
    obtain ⟨c, v, rfl⟩ := List.exists_cons_of_ne_nil hne
    refine ⟨[c], v, rfl, spans_one.mpr ⟨c, rfl, (contains_gap c).mpr (hgap c List.mem_cons_self)⟩, ?_⟩
    exact (spans_star_one v).mpr fun d hd => (contains_gap d).mpr (hgap d (List.mem_cons_of_mem c hd))

theorem spans_wordRun (words : List String) (hne : words ≠ []) :
    (star (anyOf words ++ space)).Spans l w r ↔ w.IsWordRun words := by
  constructor
  · intro h
    refine Spans.many_rec (P := Text.IsWordRun words) .nil ?_ h
    intro l u v r hu hv
    rw [append_eq_seq, spans_seq] at hu
    obtain ⟨u, s, rfl, hword, hspace⟩ := hu
    obtain ⟨word, hmem, rfl⟩ := (spans_anyOf words hne).mp hword
    rw [List.append_assoc]
    exact .cons hmem (spans_space.mp hspace) hv
  · intro h
    induction h generalizing l with
    | nil => exact spans_many_nil
    | @cons word s rest hword hs _ ih =>
      rw [← List.append_assoc]
      refine Spans.round ?_ ih
      rw [append_eq_seq, spans_seq]
      exact ⟨word.toList, s, rfl, (spans_anyOf words hne).mpr ⟨word, hword, rfl⟩, spans_space.mpr hs⟩

theorem spans_dollarName : dollarName.Spans l w r ↔ w.IsIdentifier := by
  rw [dollarName, append_eq_seq, spans_seq]
  constructor
  · rintro ⟨u, v, rfl, hu, hv⟩
    obtain ⟨c, rfl, hc⟩ := spans_one.mp hu
    refine ⟨c, v, rfl, by rwa [contains_start] at hc, ?_⟩
    intro d hd
    rw [← contains_part]
    exact (spans_star_one v).mp hv d hd
  · rintro ⟨c, v, rfl, hc, hv⟩
    refine ⟨[c], v, rfl, spans_one.mpr ⟨c, rfl, by rwa [contains_start]⟩, ?_⟩
    exact (spans_star_one v).mpr fun d hd => by rw [contains_part]; exact hv d hd

end Pattern

end CodeAtlas
