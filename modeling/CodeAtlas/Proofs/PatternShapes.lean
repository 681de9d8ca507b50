import CodeAtlas.Proofs.PatternReads

/-!
# What a pattern says about its matches

Some facts about every match of a pattern can be read off the pattern. Each is a check that is computed on the
pattern, with a lemma that says what the check means for a way through it.

* `Pattern.anchored`: a match starts at the start of a line;
* `Pattern.heads`, `Pattern.isLed`, `Pattern.startsSolid`: what a match starts with;
* `Pattern.lasts`, `Pattern.endsOnly`, `Pattern.endsSolid`: what a match ends with;
* `Pattern.avoids`: what a match does not hold;
* `Pattern.grouped`: the groups of a match are stretches of it;
* `Pattern.andThen`: the parts of a pattern from the first one on.
-/

namespace CodeAtlas

/-- Whether a class holds one character and no other, by its form. -/
def CharClass.isOnly (c : Char) : CharClass → Bool
  | ⟨[.char d], false⟩ => c == d
  | _ => false

theorem CharClass.eq_of_isOnly {c d : Char} {cls : CharClass} (h : cls.isOnly c = true)
    (hd : cls.contains d = true) : d = c := by
  unfold isOnly at h
  split at h
  · simp [contains, Item.contains] at h hd
    rw [hd, h]
  · cases h

/-- Whether a class holds one character and that is no blank, by its form. -/
def CharClass.isSolid : CharClass → Bool
  | ⟨[.char d], false⟩ => !Text.isBlank d
  | _ => false

theorem CharClass.isBlank_eq_false_of_isSolid {c : Char} {cls : CharClass} (h : cls.isSolid = true)
    (hc : cls.contains c = true) : Text.isBlank c = false := by
  unfold isSolid at h
  split at h
  · simp [contains, Item.contains] at h hc
    rwa [hc]
  · cases h

namespace Pattern

theorem Reads.exists_read {p : Pattern} {k k' : Place} (h : Reads p k k') :
    ∃ w, k'.before = k.before ++ w ∧ k.after = w ++ k'.after := by
  induction h with
  | empty k => exact ⟨[], by simp⟩
  | @char position cls c h l r m => exact ⟨[c], by simp⟩
  | seq _ _ ih ih' =>
    obtain ⟨v, hv, hv'⟩ := ih
    obtain ⟨w, hw, hw'⟩ := ih'
    exact ⟨v ++ w, by simp [hv, hw, hv', hw']⟩
  | left _ ih => exact ih
  | right _ ih => exact ih
  | stop greedy body k => exact ⟨[], by simp⟩
  | round _ _ ih ih' =>
    obtain ⟨v, hv, hv'⟩ := ih
    obtain ⟨w, hw, hw'⟩ := ih'
    exact ⟨v ++ w, by simp [hv, hw, hv', hw']⟩
  | mark slot l r m => exact ⟨[], by simp⟩
  | lineStart _ => exact ⟨[], by simp⟩
  | wordEdge _ => exact ⟨[], by simp⟩

/-! ### The start of a line -/

/-- Whether a pattern asks for the start of a line before it reads anything. -/
def anchored : Pattern → Bool
  | seq a _ => a.anchored
  | lineStart => true
  | _ => false

theorem Reads.startsLine {p : Pattern} {k k' : Place} (h : Reads p k k') (hp : p.anchored = true) :
    k.spot.startsLine = true := by
  induction h with
  | seq _ _ ih _ => exact ih hp
  | lineStart h => exact h
  | _ => cases hp

/-! ### First characters -/

/-- Whether a pattern can be passed with characters of `gap` alone. -/
def skips (gap : List Char) : Pattern → Bool
  | char _ cls => gap.any cls.contains
  | seq a b => a.skips gap && b.skips gap
  | choice a b => a.skips gap || b.skips gap
  | _ => true

/-- The classes of the first character outside of `gap` that a pattern can read. -/
def heads (gap : List Char) : Pattern → List CharClass
  | char _ cls => [cls]
  | seq a b => a.heads gap ++ if a.skips gap then b.heads gap else []
  | choice a b => a.heads gap ++ b.heads gap
  | many _ body => body.heads gap
  | _ => []

/-- The first character outside of `gap` is in one of the classes. -/
def BeginsIn (gap : List Char) (classes : List CharClass) (w : Text) : Prop :=
  ∃ g c w', w = g ++ c :: w' ∧ (∀ d ∈ g, d ∈ gap) ∧ c ∉ gap ∧ ∃ cls ∈ classes, cls.contains c = true

section

variable {gap : List Char} {classes more : List CharClass} {v w : Text}

theorem BeginsIn.mono (h : BeginsIn gap classes w) (hsub : classes ⊆ more) : BeginsIn gap more w := by
  obtain ⟨g, c, w', hw, hg, hc, cls, hcls, hcontains⟩ := h
  exact ⟨g, c, w', hw, hg, hc, cls, hsub hcls, hcontains⟩

theorem BeginsIn.append (h : BeginsIn gap classes w) (v : Text) : BeginsIn gap classes (w ++ v) := by
  obtain ⟨g, c, w', rfl, hg, hc, hcls⟩ := h
  exact ⟨g, c, w' ++ v, by simp, hg, hc, hcls⟩

theorem BeginsIn.after (h : BeginsIn gap classes w) (hv : ∀ d ∈ v, d ∈ gap) :
    BeginsIn gap classes (v ++ w) := by
  obtain ⟨g, c, w', rfl, hg, hc, hcls⟩ := h
  refine ⟨v ++ g, c, w', by simp, ?_, hc, hcls⟩
  intro d hd
  rcases List.mem_append.mp hd with hd | hd
  · exact hv d hd
  · exact hg d hd

end

/-- What a pattern reads is passed over, or begins with a character of its `heads`. -/
theorem Reads.heads {p : Pattern} {k k' : Place} (gap : List Char) (h : Reads p k k') :
    ∃ w, k'.before = k.before ++ w ∧ k.after = w ++ k'.after ∧
      ((p.skips gap = true ∧ ∀ c ∈ w, c ∈ gap) ∨ BeginsIn gap (p.heads gap) w) := by
  induction h with
  | empty k => exact ⟨[], by simp, by simp, .inl ⟨rfl, by simp⟩⟩
  | @char position cls c h l r m =>
    refine ⟨[c], by simp, by simp, ?_⟩
    by_cases hc : c ∈ gap
    · left
      exact ⟨List.any_eq_true.mpr ⟨c, hc, h⟩, by simpa using hc⟩
    · right
      exact ⟨[], c, [], rfl, by simp, hc, cls, List.mem_singleton_self cls, h⟩
  | @seq a b k k' k'' _ _ ih ih' =>
    obtain ⟨v, hv, hv', hread⟩ := ih
    obtain ⟨w, hw, hw', hread'⟩ := ih'
    refine ⟨v ++ w, by simp [hv, hw], by simp [hv', hw'], ?_⟩
    rcases hread with ⟨hskips, hgap⟩ | hbegins
    · rcases hread' with ⟨hskips', hgap'⟩ | hbegins'
      · left
        refine ⟨by rw [skips, hskips, hskips']; rfl, ?_⟩
        intro c hc
        rcases List.mem_append.mp hc with hc | hc
        · exact hgap c hc
        · exact hgap' c hc
      · right
        apply (hbegins'.after hgap).mono
        rw [Pattern.heads, if_pos hskips]
        exact List.subset_append_right _ _
    · right
      apply (hbegins.append w).mono
      exact List.subset_append_left _ _
  | @left a b k k' _ ih =>
    obtain ⟨w, hw, hw', hread⟩ := ih
    refine ⟨w, hw, hw', ?_⟩
    rcases hread with ⟨hskips, hgap⟩ | hbegins
    · exact .inl ⟨by rw [skips, hskips]; rfl, hgap⟩
    · exact .inr (hbegins.mono (List.subset_append_left _ _))
  | @right a b k k' _ ih =>
    obtain ⟨w, hw, hw', hread⟩ := ih
    refine ⟨w, hw, hw', ?_⟩
    rcases hread with ⟨hskips, hgap⟩ | hbegins
    · exact .inl ⟨by rw [skips, hskips, Bool.or_true], hgap⟩
    · exact .inr (hbegins.mono (List.subset_append_right _ _))
  | stop greedy body k => exact ⟨[], by simp, by simp, .inl ⟨rfl, by simp⟩⟩
  | @round greedy body k k' k'' _ _ ih ih' =>
    obtain ⟨v, hv, hv', hread⟩ := ih
    obtain ⟨w, hw, hw', hread'⟩ := ih'
    refine ⟨v ++ w, by simp [hv, hw], by simp [hv', hw'], ?_⟩
    rcases hread with ⟨-, hgap⟩ | hbegins
    · rcases hread' with ⟨-, hgap'⟩ | hbegins'
      · left
        refine ⟨rfl, ?_⟩
        intro c hc
        rcases List.mem_append.mp hc with hc | hc
        · exact hgap c hc
        · exact hgap' c hc
      · exact .inr (hbegins'.after hgap)
    · exact .inr (hbegins.append w)
  | mark slot l r m => exact ⟨[], by simp, by simp, .inl ⟨rfl, by simp⟩⟩
  | lineStart _ => exact ⟨[], by simp, by simp, .inl ⟨rfl, by simp⟩⟩
  | wordEdge _ => exact ⟨[], by simp, by simp, .inl ⟨rfl, by simp⟩⟩

/-- Whether what a pattern reads is spaces and tabs, then a character that is no ASCII blank. -/
def isLed (p : Pattern) : Bool :=
  !p.skips [' ', '\t'] &&
    (p.heads [' ', '\t']).all fun cls => !cls.contains '\n' && !cls.contains '\x0c' && !cls.contains '\r'

theorem Reads.led {p : Pattern} {k k' : Place} (h : Reads p k k') (hp : p.isLed = true) :
    ∃ g c w, k'.before = k.before ++ (g ++ c :: w) ∧ k.after = g ++ c :: w ++ k'.after ∧
      (∀ d ∈ g, d = ' ' ∨ d = '\t') ∧ Text.isAsciiBlank c = false := by
  rw [isLed, Bool.and_eq_true, Bool.not_eq_true', List.all_eq_true] at hp
  obtain ⟨w, hw, hw', hread⟩ := h.heads [' ', '\t']
  rcases hread with ⟨hskips, -⟩ | ⟨g, c, w', rfl, hg, hc, cls, hcls, hcontains⟩
  · rw [hp.1] at hskips
    cases hskips
  · refine ⟨g, c, w', hw, hw', by simpa using hg, ?_⟩
    have hrejects := hp.2 cls hcls
    by_contra hblank
    rw [Bool.not_eq_false, Text.isAsciiBlank] at hblank
    simp only [Bool.or_eq_true, beq_iff_eq] at hblank
    simp only [List.mem_cons, List.not_mem_nil, or_false, not_or] at hc
    rcases hblank with (((rfl | rfl) | rfl) | rfl) | rfl
    · exact hc.1 rfl
    · exact hc.2 rfl
    all_goals simp [hcontains] at hrejects

/-- Whether the first character that a pattern reads is one of some that are no blanks. -/
def startsSolid (p : Pattern) : Bool :=
  !p.skips [] && (p.heads []).all CharClass.isSolid

theorem Reads.startsSolid {p : Pattern} {k k' : Place} (h : Reads p k k') (hp : p.startsSolid = true) :
    ∃ c w, k.after = c :: w ++ k'.after ∧ Text.isBlank c = false := by
  rw [Pattern.startsSolid, Bool.and_eq_true, Bool.not_eq_true', List.all_eq_true] at hp
  obtain ⟨w, -, hw, hread⟩ := h.heads []
  rcases hread with ⟨hskips, -⟩ | ⟨g, c, w', rfl, hg, -, cls, hcls, hcontains⟩
  · rw [hp.1] at hskips
    cases hskips
  · have hnil : g = [] := List.eq_nil_iff_forall_not_mem.mpr fun d hd => by simpa using hg d hd
    subst hnil
    exact ⟨c, w', hw, CharClass.isBlank_eq_false_of_isSolid (hp.2 cls hcls) hcontains⟩

/-! ### Last characters -/

/-- The classes of the last character that a pattern can read. -/
def lasts : Pattern → List CharClass
  | char _ cls => [cls]
  | seq a b => b.lasts ++ if b.skips [] then a.lasts else []
  | choice a b => a.lasts ++ b.lasts
  | many _ body => body.lasts
  | _ => []

/-- The last character is in one of the classes. -/
def FinishesIn (classes : List CharClass) (w : Text) : Prop :=
  ∃ v c, w = v ++ [c] ∧ ∃ cls ∈ classes, cls.contains c = true

theorem FinishesIn.mono {classes more : List CharClass} {w : Text} (h : FinishesIn classes w)
    (hsub : classes ⊆ more) : FinishesIn more w := by
  obtain ⟨v, c, hw, cls, hcls, hcontains⟩ := h
  exact ⟨v, c, hw, cls, hsub hcls, hcontains⟩

theorem FinishesIn.after {classes : List CharClass} {w : Text} (h : FinishesIn classes w) (v : Text) :
    FinishesIn classes (v ++ w) := by
  obtain ⟨u, c, rfl, hcls⟩ := h
  exact ⟨v ++ u, c, by simp, hcls⟩

/-- A pattern reads nothing, or what it reads finishes with a character of its `lasts`. -/
theorem Reads.lasts {p : Pattern} {k k' : Place} (h : Reads p k k') :
    ∃ w, k'.before = k.before ++ w ∧ k.after = w ++ k'.after ∧
      ((p.skips [] = true ∧ w = []) ∨ FinishesIn p.lasts w) := by
  induction h with
  | empty k => exact ⟨[], by simp, by simp, .inl ⟨rfl, rfl⟩⟩
  | @char position cls c h l r m =>
    exact ⟨[c], by simp, by simp, .inr ⟨[], c, rfl, cls, List.mem_singleton_self cls, h⟩⟩
  | @seq a b k k' k'' _ _ ih ih' =>
    obtain ⟨v, hv, hv', hread⟩ := ih
    obtain ⟨w, hw, hw', hread'⟩ := ih'
    refine ⟨v ++ w, by simp [hv, hw], by simp [hv', hw'], ?_⟩
    rcases hread' with ⟨hskips', rfl⟩ | hfinishes'
    · rw [List.append_nil]
      rcases hread with ⟨hskips, rfl⟩ | hfinishes
      · exact .inl ⟨by rw [skips, hskips, hskips']; rfl, rfl⟩
      · right
        apply hfinishes.mono
        rw [Pattern.lasts, if_pos hskips']
        exact List.subset_append_right _ _
    · exact .inr ((hfinishes'.after v).mono (List.subset_append_left _ _))
  | @left a b k k' _ ih =>
    obtain ⟨w, hw, hw', hread⟩ := ih
    refine ⟨w, hw, hw', ?_⟩
    rcases hread with ⟨hskips, hnil⟩ | hfinishes
    · exact .inl ⟨by rw [skips, hskips]; rfl, hnil⟩
    · exact .inr (hfinishes.mono (List.subset_append_left _ _))
  | @right a b k k' _ ih =>
    obtain ⟨w, hw, hw', hread⟩ := ih
    refine ⟨w, hw, hw', ?_⟩
    rcases hread with ⟨hskips, hnil⟩ | hfinishes
    · exact .inl ⟨by rw [skips, hskips, Bool.or_true], hnil⟩
    · exact .inr (hfinishes.mono (List.subset_append_right _ _))
  | stop greedy body k => exact ⟨[], by simp, by simp, .inl ⟨rfl, rfl⟩⟩
  | @round greedy body k k' k'' _ _ ih ih' =>
    obtain ⟨v, hv, hv', hread⟩ := ih
    obtain ⟨w, hw, hw', hread'⟩ := ih'
    refine ⟨v ++ w, by simp [hv, hw], by simp [hv', hw'], ?_⟩
    rcases hread' with ⟨-, rfl⟩ | hfinishes'
    · rw [List.append_nil]
      rcases hread with ⟨-, rfl⟩ | hfinishes
      · exact .inl ⟨rfl, rfl⟩
      · exact .inr hfinishes
    · exact .inr (hfinishes'.after v)
  | mark slot l r m => exact ⟨[], by simp, by simp, .inl ⟨rfl, rfl⟩⟩
  | lineStart _ => exact ⟨[], by simp, by simp, .inl ⟨rfl, rfl⟩⟩
  | wordEdge _ => exact ⟨[], by simp, by simp, .inl ⟨rfl, rfl⟩⟩

/-- Whether the last character that a pattern reads can only be `c`. -/
def endsOnly (c : Char) (p : Pattern) : Bool :=
  !p.skips [] && p.lasts.all (·.isOnly c)

/-- Whether the last character that a pattern reads can be neither a space nor a line feed. -/
def endsSolid (p : Pattern) : Bool :=
  !p.skips [] && p.lasts.all fun cls => !cls.contains ' ' && !cls.contains '\n'

theorem Reads.exists_last {p : Pattern} {k k' : Place} (h : Reads p k k') (hp : p.skips [] = false) :
    ∃ v c, k'.before = k.before ++ (v ++ [c]) ∧ k.after = v ++ c :: k'.after ∧
      ∃ cls ∈ p.lasts, cls.contains c = true := by
  obtain ⟨w, hw, hw', hread⟩ := h.lasts
  rcases hread with ⟨hskips, -⟩ | ⟨v, c, rfl, hcls⟩
  · rw [hp] at hskips
    cases hskips
  · exact ⟨v, c, hw, by rw [hw']; simp, hcls⟩

theorem Reads.endsOnly {p : Pattern} {k k' : Place} {c : Char} (h : Reads p k k')
    (hp : p.endsOnly c = true) : ∃ v, k'.before = k.before ++ (v ++ [c]) ∧ k.after = v ++ c :: k'.after := by
  rw [Pattern.endsOnly, Bool.and_eq_true, Bool.not_eq_true', List.all_eq_true] at hp
  obtain ⟨v, d, hbefore, hafter, cls, hcls, hd⟩ := h.exists_last hp.1
  rw [CharClass.eq_of_isOnly (hp.2 cls hcls) hd] at hbefore hafter
  exact ⟨v, hbefore, hafter⟩

theorem Reads.endsSolid {p : Pattern} {k k' : Place} (h : Reads p k k') (hp : p.endsSolid = true) :
    ∃ v c, k'.before = k.before ++ (v ++ [c]) ∧ k.after = v ++ c :: k'.after ∧ c ≠ ' ' ∧ c ≠ '\n' := by
  rw [Pattern.endsSolid, Bool.and_eq_true, Bool.not_eq_true', List.all_eq_true] at hp
  obtain ⟨v, c, hbefore, hafter, cls, hcls, hc⟩ := h.exists_last hp.1
  have hrejects := hp.2 cls hcls
  simp only [Bool.and_eq_true, Bool.not_eq_true'] at hrejects
  refine ⟨v, c, hbefore, hafter, ?_, ?_⟩
  · intro hspace
    rw [hspace, hrejects.1] at hc
    cases hc
  · intro hnewline
    rw [hnewline, hrejects.2] at hc
    cases hc

/-! ### Characters that are never read -/

/-- Whether no class of a pattern holds a character. -/
def avoids (c : Char) : Pattern → Bool
  | char _ cls => !cls.contains c
  | seq a b => a.avoids c && b.avoids c
  | choice a b => a.avoids c && b.avoids c
  | many _ body => body.avoids c
  | _ => true

theorem Reads.avoids {p : Pattern} {k k' : Place} {c : Char} (h : Reads p k k')
    (hp : p.avoids c = true) : ∃ w, k'.before = k.before ++ w ∧ k.after = w ++ k'.after ∧ c ∉ w := by
  induction h with
  | empty k => exact ⟨[], by simp⟩
  | @char position cls d h l r m =>
    refine ⟨[d], by simp, by simp, ?_⟩
    intro hc
    rw [List.mem_singleton] at hc
    rw [Pattern.avoids, hc, h] at hp
    cases hp
  | seq _ _ ih ih' =>
    rw [Pattern.avoids, Bool.and_eq_true] at hp
    obtain ⟨v, hv, hv', hcv⟩ := ih hp.1
    obtain ⟨w, hw, hw', hcw⟩ := ih' hp.2
    exact ⟨v ++ w, by simp [hv, hw], by simp [hv', hw'], by simp [hcv, hcw]⟩
  | left _ ih => exact ih (Bool.and_eq_true_iff.mp hp).1
  | right _ ih => exact ih (Bool.and_eq_true_iff.mp hp).2
  | stop greedy body k => exact ⟨[], by simp⟩
  | round _ _ ih ih' =>
    obtain ⟨v, hv, hv', hcv⟩ := ih hp
    obtain ⟨w, hw, hw', hcw⟩ := ih' hp
    exact ⟨v ++ w, by simp [hv, hw], by simp [hv', hw'], by simp [hcv, hcw]⟩
  | mark slot l r m => exact ⟨[], by simp⟩
  | lineStart _ => exact ⟨[], by simp⟩
  | wordEdge _ => exact ⟨[], by simp⟩

/-! ### Groups -/

/-- Whether a pattern records no offset. -/
def unmarked : Pattern → Bool
  | seq a b => a.unmarked && b.unmarked
  | choice a b => a.unmarked && b.unmarked
  | many _ body => body.unmarked
  | mark _ => false
  | _ => true

/-- Whether a pattern records offsets only as the start and the end of a group, with no group inside of
another. -/
def grouped : Pattern → Bool
  | seq (mark a) (seq p (mark b)) => a % 2 == 0 && b == a + 1 && p.unmarked
  | seq a b => a.grouped && b.grouped
  | choice a b => a.grouped && b.grouped
  | many _ body => body.grouped
  | mark _ => false
  | empty | char _ _ | lineStart | wordEdge => true

/-- The recorded offsets are those of groups of the text that lie one after another between two offsets. -/
inductive Groups (text : Text) (low : Nat) : Nat → Marks → Prop
  | nil {high : Nat} (h : low ≤ high) : Groups text low high []
  | group (number : Nat) {high start stop : Nat} {m : Marks} (before : Groups text low start m)
      (hstart : text.IsBoundary start) (hstop : text.IsBoundary stop) (hle : start ≤ stop)
      (hhigh : stop ≤ high) : Groups text low high ((2 * number + 1, stop) :: (2 * number, start) :: m)

theorem Groups.le {text : Text} {low high : Nat} {m : Marks} (h : Groups text low high m) : low ≤ high := by
  induction h with
  | nil h => exact h
  | group number _ _ _ hle hhigh ih => omega

theorem Groups.high_mono {text : Text} {low high high' : Nat} {m : Marks} (h : Groups text low high m)
    (hle : high ≤ high') : Groups text low high' m := by
  cases h with
  | nil h => exact .nil (by omega)
  | group number before hstart hstop hspan hhigh =>
    exact .group number before hstart hstop hspan (by omega)

theorem Groups.append {text : Text} {low mid high : Nat} {m m' : Marks} (h : Groups text low mid m)
    (h' : Groups text mid high m') : Groups text low high (m' ++ m) := by
  induction h' with
  | nil hle => exact h.high_mono hle
  | group number _ hstart hstop hspan hhigh ih => exact .group number ih hstart hstop hspan hhigh

theorem Groups.of_lookup {text : Text} {low high number start stop : Nat} {m : Marks}
    (h : Groups text low high m) (hstart : m.lookup (2 * number) = some start)
    (hstop : m.lookup (2 * number + 1) = some stop) :
    text.IsBoundary start ∧ text.IsBoundary stop ∧ low ≤ start ∧ start ≤ stop ∧ stop ≤ high := by
  induction h with
  | nil _ => cases hstart
  | @group n high start' stop' m before hstart' hstop' hspan hhigh ih =>
    have hlow := before.le
    have hodd : (2 * number == 2 * n + 1) = false := beq_eq_false_iff_ne.mpr (by omega)
    have heven : (2 * number + 1 == 2 * n) = false := beq_eq_false_iff_ne.mpr (by omega)
    simp only [List.lookup_cons, hodd, heven] at hstart hstop
    by_cases hn : number = n
    · subst hn
      simp only [beq_self_eq_true, Option.some.injEq] at hstart hstop
      subst hstart
      subst hstop
      exact ⟨hstart', hstop', hlow, hspan, hhigh⟩
    · have hstart'' : (2 * number == 2 * n) = false := beq_eq_false_iff_ne.mpr (by omega)
      have hstop'' : (2 * number + 1 == 2 * n + 1) = false := beq_eq_false_iff_ne.mpr (by omega)
      simp only [hstart'', hstop''] at hstart hstop
      obtain ⟨hs, ht, hlow', hle, hhigh'⟩ := ih hstart hstop
      exact ⟨hs, ht, hlow', hle, by omega⟩

theorem Reads.marks_eq {p : Pattern} {k k' : Place} (h : Reads p k k') (hp : p.unmarked = true) :
    k'.marks = k.marks := by
  induction h with
  | empty k => rfl
  | char position h l r m => rfl
  | seq _ _ ih ih' =>
    rw [unmarked, Bool.and_eq_true] at hp
    rw [ih' hp.2, ih hp.1]
  | left _ ih =>
    rw [unmarked, Bool.and_eq_true] at hp
    exact ih hp.1
  | right _ ih =>
    rw [unmarked, Bool.and_eq_true] at hp
    exact ih hp.2
  | stop greedy body k => rfl
  | round _ _ ih ih' => rw [ih' hp, ih hp]
  | mark slot l r m => cases hp
  | lineStart _ => rfl
  | wordEdge _ => rfl

theorem Reads.size_le {p : Pattern} {k k' : Place} (h : Reads p k k') : k.before.size ≤ k'.before.size := by
  obtain ⟨w, hw, -⟩ := h.exists_read
  rw [hw, Text.size_append]
  omega

theorem Reads.text_eq {p : Pattern} {k k' : Place} (h : Reads p k k') :
    k.before ++ k.after = k'.before ++ k'.after := by
  obtain ⟨w, hw, hw'⟩ := h.exists_read
  rw [hw, hw', List.append_assoc]

theorem eq_group_or_grouped {a b : Pattern} (h : (seq a b).grouped = true) :
    (∃ n p, a = mark (2 * n) ∧ b = seq p (mark (2 * n + 1)) ∧ p.unmarked = true) ∨
      a.grouped = true ∧ b.grouped = true := by
  unfold grouped at h
  split at h
  · rename_i x p y heq
    injection heq with ha hb
    simp only [Bool.and_eq_true, beq_iff_eq] at h
    obtain ⟨⟨hx, hy⟩, hp⟩ := h
    have hhalf : 2 * (x / 2) = x := by omega
    exact .inl ⟨x / 2, p, by rw [ha, hhalf], by rw [hb, hhalf, hy], hp⟩
  · rename_i heq
    injection heq with ha hb
    subst ha
    subst hb
    exact .inr (Bool.and_eq_true_iff.mp h)
  all_goals rename_i heq; cases heq

/-- What a grouped pattern records on its way are groups of the text that it reads. -/
theorem Reads.groups {p : Pattern} {k k' : Place} (h : Reads p k k') (hp : p.grouped = true) :
    ∃ m, k'.marks = m ++ k.marks ∧
      Groups (k.before ++ k.after) k.before.size k'.before.size m := by
  induction h with
  | empty k => exact ⟨[], rfl, .nil (Nat.le_refl _)⟩
  | char position h l r m => exact ⟨[], rfl, .nil (Reads.char position h l r m).size_le⟩
  | @seq a b k k' k'' hfirst hsecond ih ih' =>
    rcases eq_group_or_grouped hp with ⟨n, q, rfl, rfl, hq⟩ | ⟨ha, hb⟩
    · cases hfirst with
      | mark _ l r m =>
        cases hsecond with
        | @seq _ _ _ k' _ hbody hstop =>
          cases hstop with
          | mark _ l' r' m' =>
            have htext := hbody.text_eq
            have hsize := hbody.size_le
            have hmarks := hbody.marks_eq hq
            dsimp only at htext hsize hmarks
            subst hmarks
            refine ⟨[(2 * n + 1, l'.size), (2 * n, l.size)], rfl, ?_⟩
            refine .group n (.nil (Nat.le_refl _)) (Text.isBoundary_size l r) ?_ hsize (Nat.le_refl _)
            rw [htext]
            exact Text.isBoundary_size l' r'
    · obtain ⟨m, hm, hgroups⟩ := ih ha
      obtain ⟨m', hm', hgroups'⟩ := ih' hb
      rw [← hfirst.text_eq] at hgroups'
      exact ⟨m' ++ m, by rw [hm', hm, List.append_assoc], hgroups.append hgroups'⟩
  | left _ ih => exact ih (Bool.and_eq_true_iff.mp hp).1
  | right _ ih => exact ih (Bool.and_eq_true_iff.mp hp).2
  | stop greedy body k => exact ⟨[], rfl, .nil (Nat.le_refl _)⟩
  | round hfirst _ ih ih' =>
    obtain ⟨m, hm, hgroups⟩ := ih hp
    obtain ⟨m', hm', hgroups'⟩ := ih' hp
    rw [← hfirst.text_eq] at hgroups'
    exact ⟨m' ++ m, by rw [hm', hm, List.append_assoc], hgroups.append hgroups'⟩
  | mark slot l r m => cases hp
  | lineStart _ => exact ⟨[], rfl, .nil (Nat.le_refl _)⟩
  | wordEdge _ => exact ⟨[], rfl, .nil (Nat.le_refl _)⟩

/-! ### The parts of a pattern in order -/

/-- A pattern with another behind it, its own parts first. -/
def andThen : Pattern → Pattern → Pattern
  | seq a b, rest => a.andThen (seq b rest)
  | p, rest => seq p rest

theorem Reads.andThen {p : Pattern} :
    ∀ {rest : Pattern} {k k' : Place}, Reads (Pattern.seq p rest) k k' → Reads (p.andThen rest) k k' := by
  induction p with
  | seq a b iha _ =>
    intro rest k k' h
    cases h with
    | seq hab hrest =>
      cases hab with
      | seq ha hb => exact iha (.seq ha (.seq hb hrest))
  | _ => intro rest k k' h; exact h

/-- The slots in which a pattern records offsets. -/
def slots : Pattern → List Nat
  | seq a b => a.slots ++ b.slots
  | choice a b => a.slots ++ b.slots
  | many _ body => body.slots
  | mark slot => [slot]
  | _ => []

/-- What a pattern does not record stays as it was. -/
theorem Reads.lookup_eq {p : Pattern} {k k' : Place} {slot : Nat} (h : Reads p k k')
    (hp : slot ∉ p.slots) : k'.marks.lookup slot = k.marks.lookup slot := by
  induction h with
  | seq _ _ ih ih' =>
    rw [slots, List.mem_append, not_or] at hp
    rw [ih' hp.2, ih hp.1]
  | left _ ih =>
    rw [slots, List.mem_append, not_or] at hp
    exact ih hp.1
  | right _ ih =>
    rw [slots, List.mem_append, not_or] at hp
    exact ih hp.2
  | round _ _ ih ih' => rw [ih' hp, ih hp]
  | mark slot' l r m =>
    rw [slots, List.mem_singleton] at hp
    rw [List.lookup_cons, beq_eq_false_iff_ne.mpr hp]
  | _ => rfl

end Pattern

end CodeAtlas
