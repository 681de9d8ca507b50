import CodeAtlas.Text.Blank
import CodeAtlas.Text.Case
import Mathlib.Data.List.Basic
import Mathlib.Tactic.SplitIfs

/-!
# Small forms of characters and of texts

Most small forms of characters are found in runs of code points. This file checks the runs once, against each other
and against the blanks, and says from that what a text in small letters is like.

* `Text.lowerChar_cases`: small forms are their own small forms, and none of them is a blank or a dot;
* `Text.lowercase_ne_nil`: a text that is not empty has a small form that is not empty;
* `Text.lowercase_lowercase`: a text in small letters stays as it is;
* `Text.head?_lowercaseAfter`, `Text.getLast?_lowercaseAfter`: what the ends of a text keep.
-/

namespace CodeAtlas.Text

/-! ### Characters -/

/-- No image of a run is in the other run, as their bounds or their parities show. -/
def CaseRun.misses (run other : CaseRun) : Bool :=
  Nat.blt (run.target + (run.last - run.first)) other.first || Nat.blt other.last run.target ||
    (Nat.beq other.step 2 && (Nat.beq run.step 2 || Nat.beq run.first run.last) &&
      Nat.beq ((run.target + other.first) % 2) 1)

/-- What is a blank beyond ASCII, from the first to the last code point. -/
def blankRanges : List (Nat × Nat) :=
  [(0x85, 0x85), (0xa0, 0xa0), (0x1680, 0x1680), (0x2000, 0x200a), (0x2028, 0x2029), (0x202f, 0x202f), (0x205f, 0x205f),
    (0x3000, 0x3000)]

/-- What is no small form beyond ASCII: blanks, the capital `I` with a dot, surrogates and ASCII but for `k`, which is
the small form of the sign of a unit. -/
def foreignRanges : List (Nat × Nat) :=
  blankRanges ++ [(0x130, 0x130), (0xd800, 0xdfff), (0, 0x6a), (0x6c, 0x7f)]

/-- Characters beyond ASCII that no run has: the blanks, the dot above a letter and both forms of a small sigma. -/
def stillRanges : List (Nat × Nat) :=
  blankRanges ++ [(0x307, 0x307), (0x3c2, 0x3c3)]

/-- No image of a run is in a range, nor is it beyond the last code point. -/
def CaseRun.avoids (run : CaseRun) (ranges : List (Nat × Nat)) : Bool :=
  Nat.blt (run.target + (run.last - run.first)) 0x110000 &&
    ranges.all fun range => Nat.blt (run.target + (run.last - run.first)) range.1 || Nat.blt range.2 run.target

/-- No code point of a run is in a range. -/
def CaseRun.isOutside (run : CaseRun) (ranges : List (Nat × Nat)) : Bool :=
  ranges.all fun range => Nat.blt run.last range.1 || Nat.blt range.2 run.first

theorem lowerRuns_miss : (lowerRuns.toList.all fun run => lowerRuns.toList.all run.misses) = true := by
  decide +kernel

theorem lowerRuns_avoid : (lowerRuns.toList.all fun run => run.avoids foreignRanges) = true := by
  decide +kernel

theorem lowerRuns_outside : (lowerRuns.toList.all fun run => run.isOutside stillRanges) = true := by
  decide +kernel

theorem stillRanges_special :
    (stillRanges.all fun range => Nat.ble 128 range.1 && (Nat.blt range.2 0x130 || Nat.blt 0x130 range.1)) = true := by
  decide

theorem CaseRun.image?_eq_some_iff {run : CaseRun} {n m : Nat} :
    run.image? n = some m ↔
      run.first ≤ n ∧ n ≤ run.last ∧ (n - run.first) % run.step = 0 ∧ m = run.target + (n - run.first) := by
  rw [image?]
  split_ifs with h
  · simp only [Bool.and_eq_true, decide_eq_true_eq, beq_iff_eq] at h
    rw [Option.some_inj]
    exact ⟨fun hm => ⟨h.1.1, h.1.2, h.2, hm.symm⟩, fun hm => hm.2.2.2.symm⟩
  · simp only [Bool.and_eq_true, decide_eq_true_eq, beq_iff_eq] at h
    constructor
    · intro hm
      cases hm
    · intro hm
      exact absurd ⟨⟨hm.1, hm.2.1⟩, hm.2.2.1⟩ h

theorem CaseRun.image?_eq_none_of_misses {run other : CaseRun} (h : run.misses other = true) {n m : Nat}
    (hm : run.image? n = some m) : other.image? m = none := by
  by_contra hsome
  obtain ⟨l, hl⟩ := Option.ne_none_iff_exists'.mp hsome
  obtain ⟨hfirst, hlast, hstep, rfl⟩ := image?_eq_some_iff.mp hm
  obtain ⟨hfirst', hlast', hstep', -⟩ := image?_eq_some_iff.mp hl
  simp only [misses, Bool.and_eq_true, Bool.or_eq_true, Nat.blt_eq, Nat.beq_eq] at h
  rcases h with (h | h) | ⟨⟨htwo, heven⟩, hodd⟩
  · omega
  · omega
  · -- the images are even steps away from the first one, which is an odd step away from the other run
    rw [htwo] at hstep'
    rcases heven with heven | heven
    · rw [heven] at hstep
      omega
    · omega

theorem CaseRun.image?_avoids {run : CaseRun} (hrun : run ∈ lowerRuns) {n m : Nat} (hm : run.image? n = some m) :
    m < 0x110000 ∧ ∀ range ∈ foreignRanges, m < range.1 ∨ range.2 < m := by
  obtain ⟨-, hlast, -, himage⟩ := image?_eq_some_iff.mp hm
  have havoids := List.all_eq_true.mp lowerRuns_avoid run (Array.mem_toList_iff.mpr hrun)
  rw [avoids, Bool.and_eq_true, Nat.blt_eq] at havoids
  refine ⟨by omega, ?_⟩
  intro range hrange
  have hrange := List.all_eq_true.mp havoids.2 range hrange
  rw [Bool.or_eq_true, Nat.blt_eq, Nat.blt_eq] at hrange
  omega

theorem exists_blankRange {c : Char} (h : isBlank c = true) (hascii : ¬c.toNat < 128) :
    ∃ range ∈ blankRanges, range.1 ≤ c.toNat ∧ c.toNat ≤ range.2 := by
  simp only [isBlank, Bool.or_eq_true, Bool.and_eq_true, decide_eq_true_eq, beq_iff_eq] at h
  simp only [blankRanges, List.mem_cons, List.not_mem_nil, or_false, exists_eq_or_imp, exists_eq_left]
  omega

/-- The small form of a code point is its own small form, and neither a blank nor a dot. -/
theorem lowerChar_image {run : CaseRun} (hrun : run ∈ lowerRuns) {n m : Nat} (hm : run.image? n = some m) :
    lowerChar (Char.ofNat m) = [Char.ofNat m] ∧ isBlank (Char.ofNat m) = false ∧ Char.ofNat m ≠ '.' := by
  obtain ⟨hmax, havoids⟩ := CaseRun.image?_avoids hrun hm
  have hsurrogate := havoids (0xd800, 0xdfff) (by decide)
  have htoNat : (Char.ofNat m).toNat = m := by
    have hvalid : m.isValidChar := by
      simp only [Nat.isValidChar]
      omega
    rw [Char.ofNat, dif_pos hvalid]
    rfl
  have hnone : lowerRuns.findSome? (·.image? m) = none := by
    rw [Array.findSome?_eq_none_iff]
    intro other hother
    have hmiss := List.all_eq_true.mp (List.all_eq_true.mp lowerRuns_miss run (Array.mem_toList_iff.mpr hrun)) other
      (Array.mem_toList_iff.mpr hother)
    exact CaseRun.image?_eq_none_of_misses hmiss hm
  by_cases hascii : m < 128
  · have hbelow := havoids (0, 0x6a) (by decide)
    have habove := havoids (0x6c, 0x7f) (by decide)
    obtain rfl : m = 0x6b := by omega
    exact ⟨by decide, by decide, by decide⟩
  · have hdotted := havoids (0x130, 0x130) (by decide)
    refine ⟨?_, ?_, ?_⟩
    · rw [lowerChar, htoNat, if_neg hascii, if_neg (by rw [beq_iff_eq]; omega), hnone]
    · by_contra hblank
      obtain ⟨range, hrange, hle, hge⟩ := exists_blankRange (by simpa using hblank) (by rw [htoNat]; exact hascii)
      have hrange := havoids range (List.mem_append_left _ hrange)
      omega
    · intro hdot
      rw [hdot, show '.'.toNat = 46 from rfl] at htoNat
      omega

/-- A character that no run has is its own small form. -/
theorem lowerChar_of_mem_stillRanges {c : Char} {range : Nat × Nat} (hrange : range ∈ stillRanges)
    (hle : range.1 ≤ c.toNat) (hge : c.toNat ≤ range.2) : lowerChar c = [c] := by
  have hspecial := List.all_eq_true.mp stillRanges_special range hrange
  rw [Bool.and_eq_true, Bool.or_eq_true, Nat.ble_eq, Nat.blt_eq, Nat.blt_eq] at hspecial
  have hascii : ¬c.toNat < 128 := by omega
  have hdotted : ¬(c.toNat == 0x130) = true := by
    rw [beq_iff_eq]
    omega
  have hnone : lowerRuns.findSome? (·.image? c.toNat) = none := by
    rw [Array.findSome?_eq_none_iff]
    intro run hrun
    by_contra hsome
    obtain ⟨m, hm⟩ := Option.ne_none_iff_exists'.mp hsome
    obtain ⟨hfirst, hlast, -⟩ := CaseRun.image?_eq_some_iff.mp hm
    have houtside := List.all_eq_true.mp
      (List.all_eq_true.mp lowerRuns_outside run (Array.mem_toList_iff.mpr hrun)) range hrange
    rw [Bool.or_eq_true, Nat.blt_eq, Nat.blt_eq] at houtside
    omega
  rw [lowerChar, if_neg hascii, if_neg hdotted, hnone]

/-- A character is its own small form, or its small forms are neither blanks nor dots. In either case they have no
other small forms. -/
theorem lowerChar_cases (c : Char) :
    lowerChar c = [c] ∨ ∀ d ∈ lowerChar c, lowerChar d = [d] ∧ isBlank d = false ∧ d ≠ '.' := by
  have hall : ∀ {list : Text}, (list.all fun d => lowerChar d == [d] && !isBlank d && d != '.') = true →
      ∀ d ∈ list, lowerChar d = [d] ∧ isBlank d = false ∧ d ≠ '.' := by
    intro list h d hd
    have hd := List.all_eq_true.mp h d hd
    simp only [Bool.and_eq_true, beq_iff_eq, Bool.not_eq_true', bne_iff_ne] at hd
    exact ⟨hd.1.1, hd.1.2, hd.2⟩
  by_cases hascii : c.toNat < 128
  · have htable : ((List.range 128).all fun n => lowerChar (Char.ofNat n) == [Char.ofNat n] ||
        (lowerChar (Char.ofNat n)).all fun d => lowerChar d == [d] && !isBlank d && d != '.') = true := by
      decide +kernel
    have hc := List.all_eq_true.mp htable c.toNat (List.mem_range.mpr hascii)
    rw [Char.ofNat_toNat, Bool.or_eq_true, beq_iff_eq] at hc
    exact hc.imp id hall
  · by_cases hdotted : (c.toNat == 0x130) = true
    · right
      rw [lowerChar, if_neg hascii, if_pos hdotted]
      intro d hd
      rcases List.mem_cons.mp hd with rfl | hd
      · exact ⟨by decide, by decide, by decide⟩
      · rw [List.mem_singleton.mp hd]
        exact ⟨lowerChar_of_mem_stillRanges (show (0x307, 0x307) ∈ stillRanges by decide) (by decide) (by decide),
          by decide, by decide⟩
    · cases himage : lowerRuns.findSome? (·.image? c.toNat) with
      | none =>
        left
        rw [lowerChar, if_neg hascii, if_neg hdotted, himage]
      | some m =>
        right
        obtain ⟨run, hrun, hm⟩ := Array.exists_of_findSome?_eq_some himage
        rw [lowerChar, if_neg hascii, if_neg hdotted, himage]
        intro d hd
        rw [List.mem_singleton.mp hd]
        exact lowerChar_image hrun hm

/-- A blank has no small form but itself. -/
theorem lowerChar_of_isBlank {c : Char} (h : isBlank c = true) : lowerChar c = [c] := by
  by_cases hascii : c.toNat < 128
  · have htable : ((List.range 128).all fun n =>
        !isBlank (Char.ofNat n) || lowerChar (Char.ofNat n) == [Char.ofNat n]) = true := by
      decide +kernel
    have hc := List.all_eq_true.mp htable c.toNat (List.mem_range.mpr hascii)
    rw [Char.ofNat_toNat, h, Bool.not_true, Bool.false_or, beq_iff_eq] at hc
    exact hc
  · obtain ⟨range, hrange, hle, hge⟩ := exists_blankRange h hascii
    exact lowerChar_of_mem_stillRanges (List.mem_append_left _ hrange) hle hge

theorem lowerChar_ne_nil (c : Char) : lowerChar c ≠ [] := by
  rw [lowerChar]
  split
  · exact List.cons_ne_nil _ _
  · split
    · exact List.cons_ne_nil _ _
    · split
      · exact List.cons_ne_nil _ _
      · exact List.cons_ne_nil _ _

/-! ### Texts -/

/-- What becomes of a character between the reversed text before it and the text behind it. -/
def lowered (before : Text) (c : Char) (rest : Text) : Text :=
  if c == 'Σ' then [lowerSigma before rest] else lowerChar c

theorem lowercaseAfter_cons (before : Text) (c : Char) (rest : Text) :
    lowercaseAfter before (c :: rest) = lowered before c rest ++ lowercaseAfter (c :: before) rest := rfl

theorem lowered_ne_nil (before : Text) (c : Char) (rest : Text) : lowered before c rest ≠ [] := by
  rw [lowered]
  split_ifs
  · exact List.cons_ne_nil _ _
  · exact lowerChar_ne_nil c

/-- Only the empty text has an empty small form. -/
theorem lowercase_ne_nil {text : Text} (h : text ≠ []) : lowercase text ≠ [] := by
  cases text with
  | nil => exact absurd rfl h
  | cons c rest =>
    rw [lowercase, lowercaseAfter_cons]
    exact List.append_ne_nil_of_left_ne_nil (lowered_ne_nil [] c rest) _

/-- What a character becomes stays as it is; it is no blank if the character is none, and no dot if it is none. -/
theorem lowered_spec {before : Text} {c : Char} {rest : Text} {d : Char} (h : d ∈ lowered before c rest) :
    lowerChar d = [d] ∧ (isBlank c = false → isBlank d = false) ∧ (c ≠ '.' → d ≠ '.') := by
  rw [lowered] at h
  split_ifs at h with hsigma
  · have hsmall : ∀ sigma : Char, 0x3c2 ≤ sigma.toNat → sigma.toNat ≤ 0x3c3 → lowerChar sigma = [sigma] :=
      fun _ => lowerChar_of_mem_stillRanges (show (0x3c2, 0x3c3) ∈ stillRanges by decide)
    rw [List.mem_singleton.mp h, lowerSigma]
    split_ifs
    · exact ⟨hsmall 'ς' (by decide) (by decide), fun _ => by decide, fun _ => by decide⟩
    · exact ⟨hsmall 'σ' (by decide) (by decide), fun _ => by decide, fun _ => by decide⟩
  · rcases lowerChar_cases c with hc | hc
    · rw [hc] at h
      rw [List.mem_singleton.mp h]
      exact ⟨hc, id, id⟩
    · obtain ⟨hd, hblank, hdot⟩ := hc d h
      exact ⟨hd, fun _ => hblank, fun _ => hdot⟩

theorem lowerChar_of_mem_lowercase {d : Char} (text : Text) :
    ∀ before, d ∈ lowercaseAfter before text → lowerChar d = [d] := by
  induction text with
  | nil => intro before h; cases h
  | cons c rest ih =>
    intro before h
    rw [lowercaseAfter_cons] at h
    rcases List.mem_append.mp h with h | h
    · exact (lowered_spec h).1
    · exact ih _ h

theorem lowercase_eq_self {text : Text} (h : ∀ c ∈ text, lowerChar c = [c]) : lowercase text = text := by
  have hafter : ∀ before, lowercaseAfter before text = text := by
    induction text with
    | nil => intro before; rfl
    | cons c rest ih =>
      intro before
      have hc := h c List.mem_cons_self
      have hsigma : ¬(c == 'Σ') = true := by
        intro hsigma
        rw [beq_iff_eq.mp hsigma] at hc
        exact absurd hc (by decide +kernel)
      rw [lowercaseAfter_cons, lowered, if_neg hsigma, hc, ih fun d hd => h d (List.mem_cons_of_mem c hd)]
      rfl
  exact hafter []

/-- **A text in small letters stays as it is.** -/
theorem lowercase_lowercase (text : Text) : lowercase (lowercase text) = lowercase text :=
  lowercase_eq_self fun _ h => lowerChar_of_mem_lowercase text [] h

section Ends

variable {P : Char → Prop} (hP : ∀ before c rest, P c → ∀ d ∈ lowered before c rest, P d)

include hP

/-- What holds of the first character and is kept holds of the first small one. -/
theorem head?_lowercaseAfter (before : Text) {text : Text} (h : ∀ c ∈ text.head?, P c) :
    ∀ d ∈ (lowercaseAfter before text).head?, P d := by
  cases text with
  | nil => intro d hd; cases hd
  | cons c rest =>
    intro d hd
    rw [lowercaseAfter_cons, List.head?_append_of_ne_nil _ (lowered_ne_nil before c rest)] at hd
    exact hP before c rest (h c rfl) d (List.mem_of_mem_head? hd)

/-- What holds of the last character and is kept holds of the last small one. -/
theorem getLast?_lowercaseAfter (text : Text) :
    ∀ before, (∀ c ∈ text.getLast?, P c) → ∀ d ∈ (lowercaseAfter before text).getLast?, P d := by
  induction text with
  | nil => intro before _ d hd; cases hd
  | cons c rest ih =>
    intro before h d hd
    rw [lowercaseAfter_cons] at hd
    cases rest with
    | nil =>
      rw [lowercaseAfter, List.append_nil] at hd
      exact hP before c [] (h c rfl) d (List.mem_of_getLast? hd)
    | cons next rest =>
      have hne : lowercaseAfter (c :: before) (next :: rest) ≠ [] := by
        rw [lowercaseAfter_cons]
        exact List.append_ne_nil_of_left_ne_nil (lowered_ne_nil _ _ _) _
      rw [List.getLast?_append_of_ne_nil _ hne] at hd
      rw [List.getLast?_cons_cons] at h
      exact ih (c :: before) h d hd

end Ends

end CodeAtlas.Text
