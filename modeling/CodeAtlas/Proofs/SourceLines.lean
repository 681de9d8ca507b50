import CodeAtlas.Source
import CodeAtlas.Proofs.TextCuts

/-!
# Lines of a source

The lines of a source are found through the offsets at which they start. This file says what the line of an
offset is, and that every range of lines can be cut out of the text and out of its code view.

* `Locates`, `bisect_locates`: searching an ascending list by halving;
* `Source.lineAt_size`: the line of an offset, counted in line feeds;
* `Source.lineAt_eq_of_locates`, `Source.lineAt_eq_bisect`: the line of an offset, found by a search among the starts
  of the lines;
* `Source.exists_lineSpan?`: a range of lines lies between two boundaries of the text;
* `Source.exists_lines?`, `Source.exists_codeLines?`: so it can be cut out.
-/

namespace CodeAtlas

/-! ### Where lines start -/

theorem mem_lineStartsAfter {o : Nat} (text : Text) :
    ∀ {offset : Nat}, o ∈ lineStartsAfter offset text
      ↔ ∃ before after, text = before ++ '\n' :: after ∧ o = offset + Text.size before + 1 := by
  induction text with
  | nil => intro offset; simp [lineStartsAfter]
  | cons c rest ih =>
    intro offset
    have hnl : '\n'.utf8Size = 1 := rfl
    constructor
    · intro ho
      rw [lineStartsAfter] at ho
      have hrest : o ∈ lineStartsAfter (offset + c.utf8Size) rest →
          ∃ before after, c :: rest = before ++ '\n' :: after ∧ o = offset + Text.size before + 1 := by
        intro ho
        obtain ⟨before, after, hsplit, ho⟩ := ih.mp ho
        exact ⟨c :: before, after, by rw [hsplit, List.cons_append], by rw [ho, Text.size_cons]; omega⟩
      split_ifs at ho with hc
      · rw [beq_iff_eq] at hc
        rcases List.mem_cons.mp ho with ho | ho
        · exact ⟨[], rest, by rw [hc]; rfl, by rw [ho, hc, hnl]; rfl⟩
        · exact hrest ho
      · exact hrest ho
    · intro h
      obtain ⟨before, after, hsplit, ho⟩ := h
      cases before with
      | nil =>
        obtain ⟨rfl, rfl⟩ := List.cons.inj hsplit
        rw [lineStartsAfter, if_pos (by rfl), ho, hnl]
        exact List.mem_cons_self
      | cons d before =>
        obtain ⟨rfl, htail⟩ := List.cons.inj hsplit
        have ho' : o ∈ lineStartsAfter (offset + c.utf8Size) rest :=
          ih.mpr ⟨before, after, htail, by rw [ho, Text.size_cons]; omega⟩
        rw [lineStartsAfter]
        split_ifs
        · exact List.mem_cons_of_mem _ ho'
        · exact ho'

/-- As many lines start before the end of a part of the text as the part has line feeds. -/
theorem countP_lineStartsAfter (left right : Text) :
    ∀ offset, (lineStartsAfter offset (left ++ right)).countP (· ≤ offset + left.size) = left.count '\n' := by
  induction left with
  | nil =>
    intro offset
    rw [List.countP_eq_zero.mpr]
    · rfl
    · intro o ho hle
      obtain ⟨before, after, -, rfl⟩ := (mem_lineStartsAfter _).mp ho
      rw [decide_eq_true_iff, Text.size_nil] at hle
      omega
  | cons c left ih =>
    intro offset
    rw [List.cons_append, lineStartsAfter, Text.size_cons, ← Nat.add_assoc, List.count_cons]
    split_ifs with hc
    · rw [List.countP_cons, ih, if_pos (by rw [decide_eq_true_iff]; omega)]
    · exact ih (offset + c.utf8Size)

/-- The offsets ascend: each line starts behind the one before. -/
theorem lineStartsAfter_pairwise (text : Text) : ∀ offset, (lineStartsAfter offset text).Pairwise (· < ·) := by
  induction text with
  | nil => intro offset; exact .nil
  | cons c rest ih =>
    intro offset
    rw [lineStartsAfter]
    split_ifs
    · refine List.pairwise_cons.mpr ⟨fun o ho => ?_, ih _⟩
      obtain ⟨before, after, -, rfl⟩ := (mem_lineStartsAfter rest).mp ho
      omega
    · exact ih _

/-! ### Looking up a number in an ascending list -/

/-- What the search for a number may answer: a place where it stands, or else the place where it could be put in. -/
inductive Locates (list : List Nat) (n : Nat) : Except Nat Nat → Prop
  | found {i : Nat} (h : list[i]? = some n) : Locates list n (.ok i)
  | missing {i : Nat} (hle : i ≤ list.length) (hbefore : ∀ x ∈ list.take i, x < n)
      (hbehind : ∀ x ∈ list.drop i, n < x) : Locates list n (.error i)

/-- Halves the stretch of a list between two places until the number is found or no place is left. -/
def bisect (list : List Nat) (n low high : Nat) : Except Nat Nat :=
  if low < high then
    match list[(low + high) / 2]? with
    | none => .error low
    | some x =>
      if x = n then .ok ((low + high) / 2)
      else if x < n then bisect list n ((low + high) / 2 + 1) high
      else bisect list n low ((low + high) / 2)
  else .error low
termination_by high - low

/-- The numbers that are not greater are counted up to the place behind them. -/
theorem countP_le_eq {list : List Nat} {n i : Nat} (hi : i ≤ list.length) (hbefore : ∀ x ∈ list.take i, x ≤ n)
    (hbehind : ∀ x ∈ list.drop i, n < x) : list.countP (· ≤ n) = i := by
  have htake : (list.take i).countP (· ≤ n) = i := by
    rw [List.countP_eq_length.mpr (by simpa using hbefore), List.length_take_of_le hi]
  have hdrop : (list.drop i).countP (· ≤ n) = 0 := List.countP_eq_zero.mpr (by simpa using hbehind)
  rw [← List.take_append_drop i list, List.countP_append, htake, hdrop, Nat.add_zero]

section Ascending

variable {list : List Nat} (hlist : list.Pairwise (· < ·))

include hlist

theorem lt_of_getElem? {i x : Nat} (h : list[i]? = some x) :
    (∀ y ∈ list.take i, y < x) ∧ ∀ y ∈ list.drop (i + 1), x < y := by
  obtain ⟨hi, rfl⟩ := List.getElem?_eq_some_iff.mp h
  have hsplit : list = list.take i ++ list[i] :: list.drop (i + 1) := by
    rw [← List.drop_eq_getElem_cons hi, List.take_append_drop]
  rw [hsplit, List.pairwise_append, List.pairwise_cons] at hlist
  obtain ⟨-, ⟨hbehind, -⟩, hcross⟩ := hlist
  exact ⟨fun y hy => hcross y hy _ List.mem_cons_self, hbehind⟩

theorem le_of_mem_take_succ {i x y : Nat} (h : list[i]? = some x) (hy : y ∈ list.take (i + 1)) : y ≤ x := by
  rw [List.take_add_one, h, List.mem_append, Option.mem_toList] at hy
  rcases hy with hy | hy
  · exact Nat.le_of_lt ((lt_of_getElem? hlist h).1 y hy)
  · exact Nat.le_of_eq (Option.some.inj hy).symm

/-- Halving leaves what is less than the number before the stretch, and what is greater behind it. -/
theorem bisect_locates (n low high : Nat) :
    low ≤ high → high ≤ list.length → (∀ x ∈ list.take low, x < n) → (∀ x ∈ list.drop high, n < x) →
      Locates list n (bisect list n low high) := by
  fun_induction bisect list n low high with
  | case1 low high hlt hnone =>
    intro _ hhigh _ _
    rw [List.getElem?_eq_none_iff] at hnone
    omega
  | case2 low high hlt hfound =>
    intro _ _ _ _
    exact .found hfound
  | case3 low high hlt x hx hne hless ih =>
    intro _ hhigh _ hbehind
    exact ih (by omega) hhigh (fun y hy => Nat.lt_of_le_of_lt (le_of_mem_take_succ hlist hx hy) hless) hbehind
  | case4 low high hlt x hx hne hless ih =>
    intro _ hhigh hbefore _
    refine ih (by omega) (by omega) hbefore fun y hy => ?_
    obtain ⟨hi, hxi⟩ := List.getElem?_eq_some_iff.mp hx
    rw [List.drop_eq_getElem_cons hi, hxi] at hy
    rcases List.mem_cons.mp hy with rfl | hy
    · omega
    · have hxy := (lt_of_getElem? hlist hx).2 y hy
      omega
  | case5 low high hge =>
    intro hle hhigh hbefore hbehind
    obtain rfl : low = high := by omega
    exact .missing hhigh hbefore hbehind

end Ascending

namespace Source

variable (source : Source)

theorem code_masks : CodeView.Masks source.code source.text := by
  rw [source.code_eq]
  exact CodeView.codeView_masks _ _

theorem size_code : source.code.size = source.text.size :=
  source.code_masks.size_eq

theorem mem_lineStarts {o : Nat} :
    o ∈ source.lineStarts
      ↔ o = 0 ∨ ∃ before after, source.text = before ++ '\n' :: after ∧ o = before.size + 1 := by
  rw [source.lineStarts_eq, List.mem_cons, mem_lineStartsAfter]
  simp

theorem isBoundary_of_mem_lineStarts {o : Nat} (h : o ∈ source.lineStarts) : source.text.IsBoundary o := by
  rcases source.mem_lineStarts.mp h with rfl | ⟨before, after, htext, rfl⟩
  · exact ⟨[], source.text, rfl, rfl⟩
  · exact (show source.text.StandsAt '\n' before.size from ⟨before, after, htext, rfl⟩).isBoundary_after

/-! ### The line of an offset -/

/-- The line of an offset is one more than the line feeds before it. -/
theorem lineAt_size {left right : Text} (h : source.text = left ++ right) :
    source.lineAt left.size = left.count '\n' + 1 := by
  have hcount := countP_lineStartsAfter left right 0
  rw [Nat.zero_add] at hcount
  rw [lineAt, source.lineStarts_eq, h, List.countP_cons, hcount, if_pos (by simp)]

theorem lineStarts_pairwise : source.lineStarts.Pairwise (· < ·) := by
  rw [source.lineStarts_eq]
  refine List.pairwise_cons.mpr ⟨fun o ho => ?_, lineStartsAfter_pairwise _ _⟩
  obtain ⟨before, after, -, rfl⟩ := (mem_lineStartsAfter _).mp ho
  omega

/-- The line that a search among the starts of the lines leads to: the one that starts at the place found, or else the
one before the place where the offset could be put in. -/
def lineOfAnswer : Except Nat Nat → Nat
  | .ok i => i + 1
  | .error i => i - 1 + 1

/-- **The line of an offset by a search** among the starts of the lines. -/
theorem lineAt_eq_of_locates {offset : Nat} {answer : Except Nat Nat} (h : Locates source.lineStarts offset answer) :
    source.lineAt offset = lineOfAnswer answer := by
  have hstarts := source.lineStarts_pairwise
  cases h with
  | @found i h =>
    obtain ⟨hi, -⟩ := List.getElem?_eq_some_iff.mp h
    exact countP_le_eq hi (fun x hx => le_of_mem_take_succ hstarts h hx) (lt_of_getElem? hstarts h).2
  | @missing i hle hbefore hbehind =>
    -- the first line starts at zero, so no offset could be put in before it
    have hpos : i ≠ 0 := by
      intro hzero
      rw [hzero, source.lineStarts_eq] at hbehind
      exact absurd (hbehind 0 List.mem_cons_self) (Nat.not_lt_zero offset)
    rw [lineAt, countP_le_eq hle (fun x hx => Nat.le_of_lt (hbefore x hx)) hbehind]
    show i = i - 1 + 1
    omega

theorem lineAt_eq_bisect (offset : Nat) :
    source.lineAt offset = lineOfAnswer (bisect source.lineStarts offset 0 source.lineStarts.length) := by
  refine source.lineAt_eq_of_locates (bisect_locates source.lineStarts_pairwise offset 0 _ ?_ ?_ ?_ ?_)
  · exact Nat.zero_le _
  · exact Nat.le_refl _
  · simp
  · simp

theorem lineAt_mono {o o' : Nat} (h : o ≤ o') : source.lineAt o ≤ source.lineAt o' := by
  apply List.countP_mono_left
  intro start _ hstart
  rw [decide_eq_true_iff] at hstart ⊢
  omega

/-- No line starts between two offsets if the text has no line feed between them. -/
theorem lineAt_eq_of_no_newline {left middle right : Text} (h : source.text = left ++ middle ++ right)
    (hmiddle : '\n' ∉ middle) : source.lineAt (left ++ middle).size = source.lineAt left.size := by
  rw [source.lineAt_size h, source.lineAt_size (by rw [h, List.append_assoc]), List.count_append,
    List.count_eq_zero_of_not_mem hmiddle, Nat.add_zero]

/-! ### The bytes of some lines -/

theorem lineStarts_length_pos : 0 < source.lineStarts.length := by
  rw [source.lineStarts_eq, List.length_cons]
  omega

/-- The number of lines, told from the offsets at which they start: the last offset of the text starts a line
exactly if a line feed ends the text or it is empty. -/
theorem lineCount_eq :
    source.lineCount
      = if source.text.size ∈ source.lineStarts then source.lineStarts.length - 1
        else source.lineStarts.length := by
  have hcond : (source.text.isEmpty || source.text.getLast? == some '\n') = true
      ↔ source.text.size ∈ source.lineStarts := by
    rw [source.mem_lineStarts, Bool.or_eq_true, List.isEmpty_iff, beq_iff_eq]
    constructor
    · intro h
      rcases h with h | h
      · exact .inl (by rw [h]; rfl)
      · obtain ⟨before, htext⟩ := List.getLast?_eq_some_iff.mp h
        exact .inr ⟨before, [], htext, by rw [htext]; simp; rfl⟩
    · intro h
      rcases h with h | ⟨before, after, htext, hsize⟩
      · exact .inl (Text.eq_nil_of_size_eq_zero h)
      · have hafter : after = [] := by
          apply Text.eq_nil_of_size_eq_zero
          rw [htext, Text.size_append, Text.size_cons, show '\n'.utf8Size = 1 from rfl] at hsize
          omega
        rw [htext, hafter]
        exact .inr List.getLast?_concat
  rw [lineCount]
  exact if_congr hcond rfl rfl

theorem lineAt_le_lineCount {offset : Nat} (h : offset < source.text.size) :
    source.lineAt offset ≤ source.lineCount := by
  rw [source.lineCount_eq, lineAt]
  split_ifs with hlast
  · -- the line that starts at the end of the text does not count
    have hne : source.lineStarts.countP (· ≤ offset) ≠ source.lineStarts.length := by
      intro hall
      have hle := List.countP_eq_length.mp hall _ hlast
      rw [decide_eq_true_iff] at hle
      omega
    have hle := List.countP_le_length (p := (· ≤ offset)) (l := source.lineStarts)
    omega
  · exact List.countP_le_length

/-- A range of lines has a first and a last byte, which are boundaries of the text. -/
theorem exists_lineSpan? (first last : Nat) :
    ∃ span, source.lineSpan? first last = some span ∧ source.text.IsBoundary span.start ∧
      source.text.IsBoundary span.stop ∧ span.start ≤ span.stop := by
  generalize hcount : max source.lineCount 1 = count
  generalize hfirst : min (max first 1) count = first'
  generalize hlast : max (min (max last 1) count) first' = last'
  have hpos : 0 < first' := by omega
  obtain ⟨index, rfl⟩ : ∃ index, first' = index + 1 := ⟨first' - 1, by omega⟩
  obtain ⟨start, hstart, hstartBoundary⟩ : ∃ start,
      source.lineStarts[index]?.getD source.text.size = start ∧ source.text.IsBoundary start := by
    cases h : source.lineStarts[index]? with
    | some o => exact ⟨o, rfl, source.isBoundary_of_mem_lineStarts (List.mem_of_getElem? h)⟩
    | none => exact ⟨source.text.size, rfl, Text.isBoundary_end source.text⟩
  -- the line after the last one does not start at zero, so a line feed stands before it
  obtain ⟨stop, hsome, hnone, hstopBoundary⟩ : ∃ stop,
      (∀ next, source.lineStarts[last']? = some next → Text.before? next = some stop) ∧
      (source.lineStarts[last']? = none → source.text.size = stop) ∧ source.text.IsBoundary stop := by
    cases h : source.lineStarts[last']? with
    | some o =>
      have hmem : o ∈ lineStartsAfter 0 source.text := by
        obtain ⟨n, rfl⟩ : ∃ n, last' = n + 1 := ⟨last' - 1, by omega⟩
        rw [source.lineStarts_eq, List.getElem?_cons_succ] at h
        exact List.mem_of_getElem? h
      obtain ⟨before, after, htext, rfl⟩ := (mem_lineStartsAfter _).mp hmem
      refine ⟨before.size, ?_, (fun hnone => by cases hnone), ?_⟩
      · intro next hnext
        cases hnext
        rw [Nat.zero_add]
        rfl
      · rw [htext]
        exact Text.isBoundary_size before ('\n' :: after)
    | none => exact ⟨_, (fun next hnext => by cases hnext), fun _ => rfl, Text.isBoundary_end source.text⟩
  refine ⟨⟨min start stop, stop⟩, ?_, ?_, hstopBoundary, Nat.min_le_right start stop⟩
  · rw [lineSpan?]
    dsimp only
    rw [hcount, hfirst, hlast, Text.before?]
    simp only [Option.bind_eq_bind, Option.bind_some]
    rw [hstart]
    cases h : source.lineStarts[last']? with
    | some next =>
      simp only [hsome next h]
      rfl
    | none =>
      simp only [hnone h]
      rfl
  · rcases Nat.le_total start stop with h | h
    · rwa [Nat.min_eq_left h]
    · rwa [Nat.min_eq_right h]

theorem exists_lines? (first last : Nat) : ∃ part, source.lines? first last = some part := by
  obtain ⟨span, hspan, hstart, hstop, hle⟩ := source.exists_lineSpan? first last
  rw [lines?, hspan]
  exact hstart.exists_slice? hstop hle

theorem exists_codeLines? (first last : Nat) : ∃ part, source.codeLines? first last = some part := by
  obtain ⟨span, hspan, hstart, hstop, hle⟩ := source.exists_lineSpan? first last
  rw [codeLines?, hspan]
  exact (source.code_masks.isBoundary hstart).exists_slice? (source.code_masks.isBoundary hstop) hle

end Source

end CodeAtlas
