import CodeAtlas.Proofs.SymbolNames
import Mathlib.Data.List.Infix

/-!
# Braces found behind a header

The body of a definition is looked for from the end of its header on: the search counts the brackets that it opens
and closes, and takes the first brace outside of them. It does not know what was open where it began, and a closing
bracket that is none of its own leaves its count at zero. This file says which brace is found, and how it lies to the
pairs of brackets around the header.

* `closing?_eq_some_iff`: the partner of a bracket, by the counts in between;
* `keepsPair_iff`, `leavesPair_iff`: pairs that end in a stretch of code, by the counts in it and before it;
* `FindsBody`, `bodyOpen?_eq_some_iff`: what the search for a body passes over;
* `FindsBody.behind`: behind a bracket that is none of its own, the search goes on as if it began there;
* `body_leaves_pairs_iff`: when the brace stands behind the end of a pair that is open around the header.
-/

namespace CodeAtlas

/-! ### Partners -/

section Partners

variable {opener closer : Char}

/-- Some beginning of a text closes more brackets of a kind than it opens. -/
def Text.Overcloses (opener closer : Char) (text : Text) : Prop :=
  ∃ u, u <+: text ∧ u.count opener < u.count closer

/-- Some end of a text opens more brackets of a kind than it closes. -/
def Text.Overopens (opener closer : Char) (text : Text) : Prop :=
  ∃ u, u <:+ text ∧ u.count closer < u.count opener

/-- A text closes each bracket of a kind that it opens, and no other ones. -/
structure Text.Balanced (opener closer : Char) (text : Text) : Prop where
  count_eq : text.count closer = text.count opener
  starts : ∀ u, u <+: text → u.count closer ≤ u.count opener

namespace Text

theorem not_overcloses_iff {text : Text} :
    ¬Overcloses opener closer text ↔ ∀ u, u <+: text → u.count closer ≤ u.count opener := by
  simp [Overcloses]

theorem not_overopens_iff {text : Text} :
    ¬Overopens opener closer text ↔ ∀ u, u <:+ text → u.count opener ≤ u.count closer := by
  simp [Overopens]

theorem Balanced.append {a b : Text} (ha : Balanced opener closer a) (hb : Balanced opener closer b) :
    Balanced opener closer (a ++ b) := by
  have hcount := ha.count_eq
  refine ⟨by rw [List.count_append, List.count_append, ha.count_eq, hb.count_eq], ?_⟩
  rintro u ⟨t, ht⟩
  rcases List.append_eq_append_iff.mp ht with ⟨v, rfl, -⟩ | ⟨v, rfl, rfl⟩
  · exact ha.starts u (List.prefix_append u v)
  · have hle := hb.starts v (List.prefix_append v t)
    rw [List.count_append, List.count_append]
    omega

/-- The last bracket that is left open: what follows it is balanced. -/
theorem Overopens.exists_last (hne : opener ≠ closer) {text : Text} (h : Overopens opener closer text) :
    ∃ before inner, text = before ++ opener :: inner ∧ Balanced opener closer inner := by
  induction text with
  | nil =>
    obtain ⟨u, hu, hcount⟩ := h
    rw [List.suffix_nil.mp hu] at hcount
    cases hcount
  | cons c rest ih =>
    by_cases hrest : Overopens opener closer rest
    · obtain ⟨before, inner, rfl, hinner⟩ := ih hrest
      exact ⟨c :: before, inner, rfl, hinner⟩
    · -- all that is left open is the first bracket
      have hends := not_overopens_iff.mp hrest
      have hwhole := hends rest List.suffix_rfl
      obtain ⟨u, hu, hcount⟩ := h
      rcases List.suffix_cons_iff.mp hu with rfl | hu
      · obtain rfl : c = opener := by
          by_contra hc
          rw [List.count_cons_of_ne hc] at hcount
          have hle := List.count_le_count_cons (a := closer) (b := c) (l := rest)
          omega
        rw [List.count_cons_self, List.count_cons_of_ne hne] at hcount
        refine ⟨[], rest, rfl, by omega, ?_⟩
        rintro w ⟨t, rfl⟩
        have ht := hends t (List.suffix_append w t)
        rw [List.count_append, List.count_append] at hcount
        omega
      · exact absurd ⟨u, hu, hcount⟩ hrest

/-- The first bracket that closes none of the text: what precedes it is balanced. -/
theorem Overcloses.exists_first (hne : opener ≠ closer) {text : Text} (h : Overcloses opener closer text) :
    ∃ inner after, text = inner ++ closer :: after ∧ Balanced opener closer inner := by
  induction text using List.reverseRecOn with
  | nil =>
    obtain ⟨u, hu, hcount⟩ := h
    rw [List.prefix_nil.mp hu] at hcount
    cases hcount
  | append_singleton rest c ih =>
    by_cases hrest : Overcloses opener closer rest
    · obtain ⟨inner, after, rfl, hinner⟩ := ih hrest
      exact ⟨inner, after ++ [c], by simp, hinner⟩
    · have hstarts := not_overcloses_iff.mp hrest
      have hwhole := hstarts rest List.prefix_rfl
      obtain ⟨u, hu, hcount⟩ := h
      rcases List.prefix_concat_iff.mp hu with rfl | hu
      · rw [List.count_append, List.count_append] at hcount
        obtain rfl : c = closer := by
          by_contra hc
          rw [List.count_singleton (a := closer), if_neg (by simpa using hc)] at hcount
          omega
        rw [List.count_singleton_self, List.count_singleton, if_neg (by simpa using hne.symm)] at hcount
        exact ⟨rest, [], rfl, by omega, hstarts⟩
      · exact absurd ⟨u, hu, hcount⟩ hrest

end Text

/-- A bracket is closed behind balanced text. -/
theorem closingFrom?_of_starts (hne : opener ≠ closer) (inner after : Text) :
    ∀ depth offset : Nat, (∀ u, u <+: inner → u.count closer < depth + u.count opener) →
      inner.count closer + 1 = depth + inner.count opener →
      closingFrom? opener closer depth offset (inner ++ closer :: after) = some (offset + Text.size inner) := by
  induction inner with
  | nil =>
    intro depth offset _ hcount
    rw [List.count_nil, List.count_nil] at hcount
    rw [List.nil_append, closingFrom?, if_neg (by simpa using hne.symm), if_pos (beq_self_eq_true closer),
      if_pos (by omega)]
    rfl
  | cons c inner ih =>
    intro depth offset hstarts hcount
    have hnext : ∀ depth', (∀ u, u <+: inner → u.count closer < depth' + u.count opener) →
        inner.count closer + 1 = depth' + inner.count opener →
        closingFrom? opener closer depth' (offset + c.utf8Size) (inner ++ closer :: after)
          = some (offset + Text.size (c :: inner)) := by
      intro depth' hstarts' hcount'
      rw [ih depth' _ hstarts' hcount', Text.size_cons, Nat.add_assoc]
    have hcons : ∀ u, u <+: inner → (c :: u).count closer < depth + (c :: u).count opener :=
      fun u hu => hstarts (c :: u) ((List.prefix_cons_inj c).mpr hu)
    rw [List.cons_append, closingFrom?]
    by_cases ho : c = opener
    · subst ho
      simp only [List.count_cons_self, List.count_cons_of_ne hne] at hcons hcount
      rw [if_pos (beq_self_eq_true c)]
      exact hnext _ (fun u hu => by have := hcons u hu; omega) (by omega)
    · rw [if_neg (by simpa using ho)]
      by_cases hc : c = closer
      · subst hc
        simp only [List.count_cons_self, List.count_cons_of_ne ho] at hcons hcount
        have hfirst := hcons [] List.nil_prefix
        rw [List.count_nil, List.count_nil] at hfirst
        rw [if_pos (beq_self_eq_true c), if_neg (by omega)]
        exact hnext _ (fun u hu => by have := hcons u hu; omega) (by omega)
      · simp only [List.count_cons_of_ne ho, List.count_cons_of_ne hc] at hcons hcount
        rw [if_neg (by simpa using hc)]
        exact hnext _ hcons hcount

/-- **The partner of a bracket** is the closing one behind balanced text. -/
theorem closing?_eq_some_iff (hne : opener ≠ closer) {code : Text} {position close : Nat} :
    closing? opener closer code position = some close ↔
      ∃ before inner after, code = before ++ opener :: (inner ++ closer :: after) ∧ position = before.size ∧
        close = (before ++ opener :: inner).size ∧ Text.Balanced opener closer inner := by
  constructor
  · intro h
    obtain ⟨before, inner, after, rfl, rfl, rfl, hcount⟩ := closing?_spec hne h
    refine ⟨before, inner, after, rfl, rfl, rfl, hcount, ?_⟩
    rintro u ⟨t, rfl⟩
    by_contra hlt
    obtain ⟨close, hclose, hbefore⟩ := exists_closingFrom?_of_count hne u (t ++ closer :: after) 1
      (before.size + opener.utf8Size) (by omega) (by omega)
    rw [closing?_size, List.append_assoc, hclose, Option.some_inj] at h
    rw [h, Text.size_append, Text.size_cons, Text.size_append] at hbefore
    omega
  · rintro ⟨before, inner, after, rfl, rfl, rfl, hinner⟩
    rw [closing?_size, closingFrom?_of_starts hne inner after]
    · rw [Text.size_append, Text.size_cons, Nat.add_assoc]
    · intro u hu
      have hle := hinner.starts u hu
      omega
    · rw [hinner.count_eq]
      omega

/-- Every closing bracket between two offsets has its partner between them. -/
def KeepsPair (opener closer : Char) (code : Text) (start stop : Nat) : Prop :=
  ∀ p, start ≤ p → p < stop → code.StandsAt closer p → ∃ q, start ≤ q ∧ closing? opener closer code q = some p

/-- A pair that is open at the one offset ends before the other. -/
def LeavesPair (opener closer : Char) (code : Text) (start stop : Nat) : Prop :=
  ∃ q p, closing? opener closer code q = some p ∧ q < start ∧ start ≤ p ∧ p < stop

variable {code before stretch after : Text}

/-- A stretch of code keeps its pairs unless it closes too much. -/
theorem keepsPair_iff (hne : opener ≠ closer) (hcode : code = before ++ (stretch ++ after)) :
    KeepsPair opener closer code before.size (before ++ stretch).size ↔ ¬Text.Overcloses opener closer stretch := by
  have hother : [closer].count opener = 0 := List.count_eq_zero.mpr (by simpa using hne)
  constructor
  · intro hkeeps hover
    obtain ⟨inner, rest, rfl, hinner⟩ := hover.exists_first hne
    have hstands : code.StandsAt closer (before ++ inner).size :=
      ⟨before ++ inner, rest ++ after, by rw [hcode]; simp, rfl⟩
    obtain ⟨q, hq, hclose⟩ := hkeeps _ (by rw [Text.size_append]; omega)
      (by simp only [Text.size_append, Text.size_cons]; have := closer.utf8Size_pos; omega) hstands
    obtain ⟨left, inner', right, hcode', rfl, hsize, hinner'⟩ := (closing?_eq_some_iff hne).mp hclose
    -- the partner stands in the balanced part before the bracket, which would then be open
    have hsame : before ++ inner = left ++ opener :: inner' := by
      refine (Text.append_inj_of_size (b := closer :: (rest ++ after)) (d := closer :: right) ?_ hsize).1
      rw [hcode] at hcode'
      simpa using hcode'
    obtain ⟨e, rfl, rfl⟩ := Text.exists_append_of_size_le hsame hq
    have hle := hinner.starts e (List.prefix_append e _)
    have hcount := hinner.count_eq
    rw [List.count_append, List.count_append, List.count_cons_self, List.count_cons_of_ne hne,
      hinner'.count_eq] at hcount
    omega
  · intro hover p hp hlt hstands
    obtain ⟨l, r, hcode', rfl⟩ := hstands
    obtain ⟨u, rfl, hrest⟩ := Text.exists_append_of_size_le (hcode.symm.trans hcode') hp
    obtain ⟨w, rfl, -⟩ := Text.exists_cons_of_size_lt hrest.symm
      (by rw [Text.size_append, Text.size_append] at hlt; omega)
    have hle := Text.not_overcloses_iff.mp hover (u ++ [closer]) ⟨w, by simp⟩
    rw [List.count_append, List.count_append, List.count_singleton_self, hother] at hle
    have hopen : Text.Overopens opener closer u := ⟨u, List.suffix_rfl, by omega⟩
    obtain ⟨v, inner, rfl, hinner⟩ := hopen.exists_last hne
    refine ⟨(before ++ v).size, by rw [Text.size_append]; omega, (closing?_eq_some_iff hne).mpr ?_⟩
    exact ⟨before ++ v, inner, r, by rw [hcode']; simp, rfl, by simp, hinner⟩

/-- A pair that is open before a stretch ends within it exactly if something is left open before it, and the stretch
closes too much. -/
theorem leavesPair_iff (hne : opener ≠ closer) (hcode : code = before ++ (stretch ++ after)) :
    LeavesPair opener closer code before.size (before ++ stretch).size ↔
      Text.Overopens opener closer before ∧ Text.Overcloses opener closer stretch := by
  have hother : [closer].count opener = 0 := List.count_eq_zero.mpr (by simpa using hne)
  constructor
  · rintro ⟨q, p, hclose, hq, hp, hlt⟩
    obtain ⟨left, inner, right, hcode', rfl, rfl, hinner⟩ := (closing?_eq_some_iff hne).mp hclose
    obtain ⟨u, rfl, hrest⟩ := Text.exists_cons_of_size_lt (hcode'.symm.trans hcode) hq
    simp only [Text.size_append, Text.size_cons] at hp hlt
    obtain ⟨v, rfl, hrest'⟩ := Text.exists_append_of_size_le hrest.symm (by omega)
    rw [Text.size_append] at hlt
    obtain ⟨w, rfl, -⟩ := Text.exists_cons_of_size_lt hrest'.symm (by omega)
    have hle := hinner.starts u (List.prefix_append u v)
    have hcount := hinner.count_eq
    rw [List.count_append, List.count_append] at hcount
    refine ⟨⟨opener :: u, List.suffix_append _ _, ?_⟩, ⟨v ++ [closer], ⟨w, by simp⟩, ?_⟩⟩
    · rw [List.count_cons_self, List.count_cons_of_ne hne]
      omega
    · rw [List.count_append, List.count_append, List.count_singleton_self, hother]
      omega
  · rintro ⟨hopens, hcloses⟩
    obtain ⟨left, u, rfl, hu⟩ := hopens.exists_last hne
    obtain ⟨v, w, rfl, hv⟩ := hcloses.exists_first hne
    have hclose : closing? opener closer code left.size = some (left ++ opener :: (u ++ v)).size :=
      (closing?_eq_some_iff hne).mpr ⟨left, u ++ v, w ++ after, by rw [hcode]; simp, rfl, rfl, hu.append hv⟩
    refine ⟨_, _, hclose, ?_⟩
    have hopener := opener.utf8Size_pos
    have hcloser := closer.utf8Size_pos
    simp only [Text.size_append, Text.size_cons]
    omega

end Partners

/-! ### The search for a body -/

/-- The brackets behind which the search is inside of a pair. It counts both kinds as one. -/
def isOpening (c : Char) : Bool :=
  c == '(' || c == '['

/-- The brackets that end a pair. -/
def isClosing (c : Char) : Bool :=
  c == ')' || c == ']'

/-- The characters at which the search ends, outside of pairs. -/
def isStop (c : Char) : Bool :=
  c == '\x7b' || c == ';' || c == '\x7d'

/-- No end of a text opens more brackets than it closes, of whatever kind. -/
def Text.Settled (text : Text) : Prop :=
  ∀ u, u <:+ text → u.countP isOpening ≤ u.countP isClosing

/-- The number of brackets that the search has open behind a character. -/
def depthBehind (depth : Nat) (c : Char) : Nat :=
  if isOpening c then depth + 1 else if isClosing c then depth - 1 else depth

theorem not_isClosing_of_isOpening {c : Char} (h : isOpening c = true) : ¬isClosing c = true := by
  rw [isOpening, Bool.or_eq_true, beq_iff_eq, beq_iff_eq] at h
  rcases h with rfl | rfl
  · decide
  · decide

/-- What is open behind a text was opened by one of its ends, or before it. -/
theorem foldl_depthBehind_le_iff (bound : Nat) (text : Text) :
    ∀ depth, text.foldl depthBehind depth ≤ bound ↔
      (∀ u, u <:+ text → u.countP isOpening ≤ u.countP isClosing + bound) ∧
        depth + text.countP isOpening ≤ text.countP isClosing + bound := by
  induction text with
  | nil =>
    intro depth
    simp
  | cons c rest ih =>
    intro depth
    have hstep : rest.countP isOpening ≤ rest.countP isClosing + bound →
        (depthBehind depth c + rest.countP isOpening ≤ rest.countP isClosing + bound ↔
          depth + (c :: rest).countP isOpening ≤ (c :: rest).countP isClosing + bound) := by
      intro hrest
      rw [depthBehind, List.countP_cons, List.countP_cons]
      split_ifs with hopen hclose
      · exact absurd hclose (not_isClosing_of_isOpening hopen)
      all_goals omega
    rw [List.foldl_cons, ih]
    constructor
    · rintro ⟨hends, hcount⟩
      have hwhole := (hstep (hends rest List.suffix_rfl)).mp hcount
      refine ⟨?_, hwhole⟩
      intro u hu
      rcases List.suffix_cons_iff.mp hu with rfl | hu
      · omega
      · exact hends u hu
    · rintro ⟨hends, hcount⟩
      have hends' : ∀ u, u <:+ rest → u.countP isOpening ≤ u.countP isClosing + bound :=
        fun u hu => hends u (hu.trans (List.suffix_cons c rest))
      exact ⟨hends', (hstep (hends' rest List.suffix_rfl)).mpr hcount⟩

theorem Text.settled_iff {text : Text} : text.Settled ↔ text.foldl depthBehind 0 = 0 := by
  rw [← Nat.le_zero, foldl_depthBehind_le_iff]
  constructor
  · intro h
    have hwhole := h text List.suffix_rfl
    exact ⟨h, by omega⟩
  · intro h
    exact h.1

/-- The search passes over a stretch from a depth: all pairs end, and every stop on the way stands inside of one. -/
structure Passes (depth : Nat) (stretch : Text) : Prop where
  ends : stretch.foldl depthBehind depth = 0
  inside : ∀ u c v, stretch = u ++ c :: v → isStop c = true → u.foldl depthBehind depth ≠ 0

theorem passes_nil_iff {depth : Nat} : Passes depth [] ↔ depth = 0 := by
  constructor
  · intro h
    exact h.ends
  · intro h
    exact ⟨h, fun u c v huv => by simp at huv⟩

theorem passes_cons_iff {depth : Nat} {c : Char} {rest : Text} :
    Passes depth (c :: rest) ↔ (isStop c = true → depth ≠ 0) ∧ Passes (depthBehind depth c) rest := by
  constructor
  · rintro ⟨hends, hinside⟩
    refine ⟨hinside [] c rest rfl, hends, ?_⟩
    rintro u d v rfl hd
    exact hinside (c :: u) d v rfl hd
  · rintro ⟨hc, hends, hinside⟩
    refine ⟨hends, ?_⟩
    intro u d v huv hd
    cases u with
    | nil =>
      obtain ⟨rfl, -⟩ := List.cons.inj huv
      exact hc hd
    | cons x u =>
      obtain ⟨rfl, rfl⟩ := List.cons.inj huv
      exact hinside u d v rfl hd

/-- One step of the search. -/
theorem bodyOpenFrom?_cons (depth offset : Nat) (c : Char) (rest : Text) :
    bodyOpenFrom? depth offset (c :: rest)
      = if depth = 0 ∧ isStop c = true then if c = '\x7b' then some offset else none
        else bodyOpenFrom? (depthBehind depth c) (offset + c.utf8Size) rest := by
  by_cases hstop : depth = 0 ∧ isStop c = true
  · rw [if_pos hstop]
    obtain ⟨rfl, hc⟩ := hstop
    rw [isStop, Bool.or_eq_true, Bool.or_eq_true, beq_iff_eq, beq_iff_eq, beq_iff_eq] at hc
    rcases hc with (rfl | rfl) | rfl
    · rfl
    · rfl
    · rfl
  · have hbrace : ¬(depth == 0 && c == '\x7b') = true := by
      intro h
      rw [Bool.and_eq_true, beq_iff_eq, beq_iff_eq] at h
      exact hstop ⟨h.1, by rw [h.2]; rfl⟩
    have hend : ¬(depth == 0 && (c == ';' || c == '\x7d')) = true := by
      intro h
      rw [Bool.and_eq_true, Bool.or_eq_true, beq_iff_eq, beq_iff_eq, beq_iff_eq] at h
      refine hstop ⟨h.1, ?_⟩
      rcases h.2 with rfl | rfl
      · rfl
      · rfl
    rw [if_neg hstop, bodyOpenFrom?, depthBehind, isOpening, isClosing, if_neg hbrace, if_neg hend]
    split_ifs
    · rfl
    · rfl
    · rfl

theorem bodyOpenFrom?_eq_some_iff {opened : Nat} (text : Text) :
    ∀ {depth offset : Nat}, bodyOpenFrom? depth offset text = some opened ↔
      ∃ stretch after, text = stretch ++ '\x7b' :: after ∧ opened = offset + Text.size stretch ∧
        Passes depth stretch := by
  induction text with
  | nil =>
    intro depth offset
    constructor
    · intro h
      cases h
    · rintro ⟨stretch, after, h, -⟩
      simp at h
  | cons c rest ih =>
    intro depth offset
    rw [bodyOpenFrom?_cons]
    constructor
    · intro h
      split_ifs at h with hstop hc
      · cases h
        exact ⟨[], rest, by rw [hc]; rfl, rfl, passes_nil_iff.mpr hstop.1⟩
      · obtain ⟨stretch, after, rfl, rfl, hpasses⟩ := ih.mp h
        refine ⟨c :: stretch, after, rfl, by rw [Text.size_cons, Nat.add_assoc], passes_cons_iff.mpr ⟨?_, hpasses⟩⟩
        intro hc hdepth
        exact hstop ⟨hdepth, hc⟩
    · rintro ⟨stretch, after, htext, rfl, hpasses⟩
      cases stretch with
      | nil =>
        obtain ⟨rfl, -⟩ := List.cons.inj htext
        rw [if_pos ⟨passes_nil_iff.mp hpasses, rfl⟩, if_pos rfl]
        rfl
      | cons d stretch =>
        obtain ⟨rfl, rfl⟩ := List.cons.inj htext
        obtain ⟨hc, hpasses⟩ := passes_cons_iff.mp hpasses
        rw [if_neg (fun h => hc h.2 h.1)]
        exact ih.mpr ⟨stretch, after, rfl, by rw [Text.size_cons, Nat.add_assoc], hpasses⟩

/-- From an offset, the search for a body passes over a stretch of code to a brace: no pair that it opened is open
there, and every brace or semicolon on the way stands inside of one. -/
structure FindsBody (code : Text) (start opened : Nat) (before stretch after : Text) : Prop where
  code_eq : code = before ++ (stretch ++ '\x7b' :: after)
  seek_eq : code.seek start = (before.size, stretch ++ '\x7b' :: after)
  opened_eq : opened = (before ++ stretch).size
  settled : stretch.Settled
  inside : ∀ (u : Text) (c : Char) (v : Text), stretch = u ++ c :: v → isStop c = true → ¬u.Settled

theorem passes_zero_iff {stretch : Text} :
    Passes 0 stretch ↔
      stretch.Settled ∧ ∀ (u : Text) (c : Char) (v : Text), stretch = u ++ c :: v → isStop c = true → ¬u.Settled := by
  simp only [Text.settled_iff]
  exact ⟨fun h => ⟨h.ends, h.inside⟩, fun h => ⟨h.1, h.2⟩⟩

/-- **The brace that is found.** -/
theorem bodyOpen?_eq_some_iff {code : Text} {start opened : Nat} :
    bodyOpen? code start = some opened ↔ ∃ before stretch after, FindsBody code start opened before stretch after := by
  obtain ⟨before, rest, hcode, hseek, -⟩ := Text.exists_seekFrom start code 0
  rw [Nat.zero_add] at hseek
  have hbody : bodyOpen? code start = bodyOpenFrom? 0 before.size rest := by
    rw [bodyOpen?, Text.seek, hseek]
  rw [hbody, bodyOpenFrom?_eq_some_iff]
  constructor
  · rintro ⟨stretch, after, rfl, hopened, hpasses⟩
    obtain ⟨hsettled, hinside⟩ := passes_zero_iff.mp hpasses
    exact ⟨before, stretch, after, hcode, hseek, by rw [hopened, Text.size_append], hsettled, hinside⟩
  · rintro ⟨before', stretch, after, hfinds⟩
    have hsame := hfinds.seek_eq.symm.trans hseek
    rw [Prod.mk.injEq] at hsame
    refine ⟨stretch, after, hsame.2.symm, ?_, passes_zero_iff.mpr ⟨hfinds.settled, hfinds.inside⟩⟩
    rw [hfinds.opened_eq, Text.size_append, hsame.1]

namespace FindsBody

variable {code before stretch after : Text} {start opened : Nat}

/-- Behind a bracket that ends no pair of its own, the search goes on as if it began there. -/
theorem behind (h : FindsBody code start opened before stretch after) {u v : Text} {c : Char}
    (hstretch : stretch = u ++ c :: v) (hc : isClosing c = true) (hu : u.Settled) :
    FindsBody code (before ++ u ++ [c]).size opened (before ++ u ++ [c]) v after := by
  have hcode : code = before ++ u ++ [c] ++ (v ++ '\x7b' :: after) := by
    rw [h.code_eq, hstretch]
    simp
  refine ⟨hcode, ?_, ?_, ?_, ?_⟩
  · rw [hcode, Text.seek_size]
  · rw [h.opened_eq, hstretch]
    simp
  · intro t ht
    rw [hstretch] at h
    exact h.settled t (ht.trans ((List.suffix_cons c v).trans (List.suffix_append u _)))
  · rintro w d x rfl hd hw
    refine h.inside (u ++ c :: w) d x (by rw [hstretch]; simp) hd ?_
    have hdepth : depthBehind 0 c = 0 := by
      rw [depthBehind, if_neg (fun hopen => not_isClosing_of_isOpening hopen hc), if_pos hc]
    rw [Text.settled_iff] at hu hw ⊢
    rw [List.foldl_append, hu, List.foldl_cons, hdepth, hw]

/-- Offsets of characters lie behind the start of the search as they lie behind the start of the stretch. -/
theorem start_le_iff (h : FindsBody code start opened before stretch after) {c : Char} {p : Nat}
    (hp : code.StandsAt c p) : start ≤ p ↔ before.size ≤ p := by
  constructor
  · intro hle
    obtain ⟨u, v, rfl, rfl⟩ := hp
    have hseek : (Text.seek start (u ++ c :: v)).1 ≤ 0 + Text.size u := Text.seekFrom_le u (c :: v) (by omega)
    rwa [h.seek_eq, Nat.zero_add] at hseek
  · intro hle
    obtain ⟨a, b, -, hseek, hend⟩ := Text.exists_seekFrom start code 0
    rw [Nat.zero_add] at hseek hend
    have hsame := h.seek_eq.symm.trans hseek
    rw [Prod.mk.injEq] at hsame
    rcases hend with hnil | hend
    · rw [hnil] at hsame
      simp at hsame
    · omega

/-- The search keeps the pairs of a kind unless it passes over the end of one that it has not opened. -/
theorem keepsPair_iff (h : FindsBody code start opened before stretch after) {opener closer : Char}
    (hne : opener ≠ closer) :
    KeepsPair opener closer code start opened ↔ ¬Text.Overcloses opener closer stretch := by
  rw [← CodeAtlas.keepsPair_iff hne h.code_eq, h.opened_eq]
  constructor
  · intro hkeeps p hp hlt hstands
    obtain ⟨q, hq, hclose⟩ := hkeeps p ((h.start_le_iff hstands).mpr hp) hlt hstands
    exact ⟨q, (h.start_le_iff (standsAt_of_closing? hne hclose).1).mp hq, hclose⟩
  · intro hkeeps p hp hlt hstands
    obtain ⟨q, hq, hclose⟩ := hkeeps p ((h.start_le_iff hstands).mp hp) hlt hstands
    exact ⟨q, (h.start_le_iff (standsAt_of_closing? hne hclose).1).mpr hq, hclose⟩

end FindsBody

/-! ### Definitions inside of brackets -/

/-- Every symbol that these rules read off a source is that of a definition which one of them finds at a match. -/
theorem Braces.exists_definition {source : Source} {e : Extraction} {s : Symbol}
    (he : Extraction.ofFamily? .generic source = some e) (hs : s ∈ e.symbols) :
    ∃ rule ∈ rules, ∃ m ∈ rule.header.findAll source.code, ∃ f h, definitionAt? source rule m = some f ∧
      f.header = some h ∧ h.symbol? source = some s ∧ source.Places .generic h := by
  obtain ⟨findings, h, hfindings, hmem, hplaces, hsymbol⟩ := Extraction.exists_header he hs
  obtain ⟨f, hf, hheader⟩ := List.mem_filterMap.mp hmem
  rw [Extraction.findings?, findings?, Option.bind_eq_bind, Option.bind_eq_some_iff] at hfindings
  obtain ⟨found, hfound, hflat⟩ := hfindings
  cases hflat
  obtain ⟨fs, hfs, hf⟩ := List.mem_flatten.mp hf
  obtain ⟨rule, hrule, hfs⟩ := exists_of_mem_mapM hfound hfs
  obtain ⟨m, hm, hf⟩ := exists_of_mem_mapM hfs hf
  exact ⟨rule, hrule, m, hm, f, h, hf, hheader, hsymbol, hplaces⟩

/-- The pairs of brackets that the search for a body knows. -/
def bracketPairs : List (Char × Char) :=
  [('(', ')'), ('[', ']')]

theorem ne_of_mem_bracketPairs : ∀ pair ∈ bracketPairs, pair.1 ≠ pair.2 := by
  decide

/-- Every closing bracket between two offsets has its partner between them. -/
def KeepsPairs (code : Text) (start stop : Nat) : Prop :=
  ∀ pair ∈ bracketPairs, KeepsPair pair.1 pair.2 code start stop

/-- **Bodies and the brackets around a header.** The search for a body finds the first brace at which no pair is open
that it opened, with neither a brace nor a semicolon outside of such pairs before it. The brackets that it passes over
have their partners behind its start exactly if no beginning of the stretch closes more brackets of a kind than it
opens; and from a bracket on that it meets while none of its own is open, it finds what a search from there finds. So
for every symbol that is read by a keyword or modifiers, a pair that is open where its header starts ends before its
body exactly if the code leaves a bracket of the kind open before the header, and what stands from there to the body
closes more of them than it opens. -/
theorem body_leaves_pairs_iff (code : Text) (start opened : Nat) (source : Source) :
    (bodyOpen? code start = some opened ↔
      ∃ before stretch after, FindsBody code start opened before stretch after) ∧
    (∀ before stretch after, FindsBody code start opened before stretch after →
      (KeepsPairs code start opened ↔ ∀ pair ∈ bracketPairs, ¬Text.Overcloses pair.1 pair.2 stretch) ∧
      ∀ (u : Text) (c : Char) (v : Text), stretch = u ++ c :: v → isClosing c = true → u.Settled →
        bodyOpen? code (Text.size (before ++ u ++ [c])) = some opened) ∧
    ∀ e s, Extraction.ofFamily? .generic source = some e → s ∈ e.symbols →
      ∃ rule ∈ Braces.rules, ∃ m ∈ rule.header.findAll source.code, ∃ f h,
        Braces.definitionAt? source rule m = some f ∧ f.header = some h ∧ h.symbol? source = some s ∧
        ∃ before stretch after, source.code = before ++ (stretch ++ after) ∧ h.start = before.size ∧
          h.stop = Text.size (before ++ stretch) ∧
          ∀ pair ∈ bracketPairs, LeavesPair pair.1 pair.2 source.code h.start h.stop ↔
            Text.Overopens pair.1 pair.2 before ∧ Text.Overcloses pair.1 pair.2 stretch := by
  refine ⟨bodyOpen?_eq_some_iff, ?_, ?_⟩
  · intro before stretch after hfinds
    refine ⟨?_, ?_⟩
    · exact forall₂_congr fun pair hpair => hfinds.keepsPair_iff (ne_of_mem_bracketPairs pair hpair)
    · intro u c v hstretch hc hu
      exact bodyOpen?_eq_some_iff.mpr ⟨_, v, after, hfinds.behind hstretch hc hu⟩
  · intro e s he hs
    obtain ⟨rule, hrule, m, hm, f, h, hf, hheader, hsymbol, hplaces⟩ := Braces.exists_definition he hs
    have hstart : source.code.IsBoundary h.start := by
      obtain ⟨l, g, c, w, hcode, hl, -⟩ := hplaces.heads
      exact ⟨l, _, by rw [hcode, List.append_assoc], hl⟩
    obtain ⟨before, stretch, after, hcode, hbefore, hstretch⟩ :=
      hstart.exists_parts (source.code_masks.isBoundary hplaces.boundary) hplaces.le
    rw [List.append_assoc] at hcode
    refine ⟨rule, hrule, m, hm, f, h, hf, hheader, hsymbol, before, stretch, after, hcode, hbefore, hstretch, ?_⟩
    intro pair hpair
    rw [hbefore, hstretch]
    exact leavesPair_iff (ne_of_mem_bracketPairs pair hpair) hcode

/-- A function with brackets of both kinds in its parameters. -/
def nestedParameters : Source :=
  Source.ofText "a.js" .javaScript "f(a[(b)]) \x7b\n\x7d\n".toList

/-- The function. -/
def parametrizedFunction : Symbol :=
  ⟨"f", .function, "a.js", 1, 2, "f(a[(b)])", "f(a[(b)]) \x7b\n\x7d"⟩

/-- Its body stands behind its parameters, all of whose brackets have their partners there. -/
theorem nestedParameters_keep_pairs :
    bodyOpen? nestedParameters.code 1 = some 10 ∧ KeepsPairs nestedParameters.code 1 10 ∧
    Extraction.ofFamily? .generic nestedParameters = some ⟨[parametrizedFunction], [], 0⟩ ∧
    ∃ rule ∈ Braces.rules, ∃ m ∈ rule.header.findAll nestedParameters.code, ∃ f h,
      Braces.definitionAt? nestedParameters rule m = some f ∧ f.header = some h ∧
      h.symbol? nestedParameters = some parametrizedFunction ∧
      ∃ before stretch after, nestedParameters.code = before ++ (stretch ++ after) ∧ h.start = before.size ∧
        h.stop = Text.size (before ++ stretch) ∧
        ∀ pair ∈ bracketPairs, LeavesPair pair.1 pair.2 nestedParameters.code h.start h.stop ↔
          Text.Overopens pair.1 pair.2 before ∧ Text.Overcloses pair.1 pair.2 stretch := by
  have hfinds : FindsBody nestedParameters.code 1 10 "f".toList "(a[(b)]) ".toList "\n\x7d\n".toList := by
    refine ⟨by decide +kernel, by decide +kernel, by decide, Text.settled_iff.mpr (by decide), ?_⟩
    intro u c v huv hc
    have hnone : "(a[(b)]) ".toList.all (fun c => !isStop c) = true := by decide
    have hpassed := List.all_eq_true.mp hnone c (by rw [huv]; simp)
    rw [hc] at hpassed
    cases hpassed
  have hstarts : ∀ pair ∈ bracketPairs, ¬Text.Overcloses pair.1 pair.2 "(a[(b)]) ".toList := by
    intro pair hpair
    rw [Text.not_overcloses_iff]
    intro u hu
    have hall : ∀ pair ∈ bracketPairs, ∀ u ∈ "(a[(b)]) ".toList.inits, u.count pair.2 ≤ u.count pair.1 := by decide
    exact hall pair hpair u ((List.mem_inits u _).mpr hu)
  have hread : Extraction.ofFamily? .generic nestedParameters = some ⟨[parametrizedFunction], [], 0⟩ := by
    decide +kernel
  obtain ⟨hfound, hpairs, hsymbols⟩ := body_leaves_pairs_iff nestedParameters.code 1 10 nestedParameters
  exact ⟨hfound.mpr ⟨_, _, _, hfinds⟩, (hpairs _ _ _ hfinds).1.mpr hstarts, hread,
    hsymbols _ parametrizedFunction hread (List.mem_singleton_self _)⟩

/-- A condition with a call at the start of a line. -/
def callInCondition : Source :=
  Source.ofText "a.js" .javaScript "if (a &&\n  g(b)) \x7b\n\x7d\n".toList

/-- What is read off for the call. -/
def conditionCall : Symbol :=
  ⟨"g", .function, "a.js", 2, 3, "g(b))", "  g(b)) \x7b\n\x7d"⟩

/-- The call is taken for a function, and the block behind the condition for its body: the search for it passes over
the parenthesis that ends the condition, which opens before the line of the call. -/
theorem callInCondition_leaves_pair :
    Extraction.ofFamily? .generic callInCondition = some ⟨[conditionCall], [], 0⟩ ∧
    bodyOpen? callInCondition.code 12 = some 17 ∧ ¬KeepsPairs callInCondition.code 12 17 ∧
    LeavesPair '(' ')' callInCondition.code 9 17 := by
  have hcode : callInCondition.code = "if (a &&\n  g(b)) \x7b\n\x7d\n".toList := by decide +kernel
  have hcondition : closing? '(' ')' callInCondition.code 3 = some 15 := by
    rw [hcode]
    decide
  refine ⟨by decide +kernel, by rw [hcode]; decide, ?_, 3, 15, hcondition, by decide, by decide, by decide⟩
  intro hkeeps
  have hstands : callInCondition.code.StandsAt ')' 15 := (standsAt_of_closing? (by decide) hcondition).2.1
  obtain ⟨q, hq, hclose⟩ := hkeeps ('(', ')') (by decide) 15 (by decide) (by decide) hstands
  have hlt := (standsAt_of_closing? (by decide) hclose).2.2
  have hnone : ∀ q < 15, 12 ≤ q → closing? '(' ')' callInCondition.code q ≠ some 15 := by
    rw [hcode]
    decide
  exact hnone q hlt hq hclose

end CodeAtlas
