import CodeAtlas.Proofs.Identifiers
import CodeAtlas.Proofs.TableGrowth

/-!
# Edges and what they are read off

The edges of a symbol are drawn mention by mention: the first mention of a name draws an edge, and a later one adds
its line to that edge unless it is the last line there. Lines are counted while the code of the symbol is read, from
its first line on. This file says what the edges are in terms of the tokens of the code and of the lines at which
these stand in the source.

* `Source.exists_lineParts`: the bytes of some lines, and how many lines end before them;
* `Source.lineAt_size_code`: lines counted in the code, where it keeps the lines of the text;
* `Source.mentions_eq_tokens`: the lines that are counted are the lines of the source;
* `EdgesOf`: edges that show some names with their lines, in the order of first occurrence;
* `EdgesOf.addKnown`, `edgesOf_foldl`: one mention keeps that, so all of them do;
* `edges_are_mentions`: the edges of a symbol of a table.
-/

namespace CodeAtlas

/-! ### The bytes of some lines -/

/-- What stands before a line that starts behind a line feed. -/
theorem exists_of_getElem?_lineStartsAfter {o : Nat} (text : Text) :
    ∀ {offset k : Nat}, (lineStartsAfter offset text)[k]? = some o →
      ∃ before after, text = before ++ '\n' :: after ∧ o = offset + Text.size before + 1 ∧
        before.count '\n' = k := by
  induction text with
  | nil => intro offset k h; cases h
  | cons c rest ih =>
    intro offset k h
    rw [lineStartsAfter] at h
    split_ifs at h with hc
    · rw [beq_iff_eq] at hc
      subst hc
      cases k with
      | zero =>
        cases h
        exact ⟨[], rest, rfl, rfl, rfl⟩
      | succ k =>
        obtain ⟨before, after, hsplit, ho, hcount⟩ := ih h
        refine ⟨'\n' :: before, after, by rw [hsplit, List.cons_append], ?_, by rw [List.count_cons_self, hcount]⟩
        rw [ho, Text.size_cons]
        omega
    · obtain ⟨before, after, hsplit, ho, hcount⟩ := ih h
      refine ⟨c :: before, after, by rw [hsplit, List.cons_append], by rw [ho, Text.size_cons]; omega, ?_⟩
      rw [List.count_cons, hcount, if_neg hc, Nat.add_zero]

/-- Of two beginnings of a text, the one with no more line feeds is a beginning of the other, if it ends with one of
them or the other ends before one. -/
theorem Text.exists_append_of_count_le {a b c d : Text} (h : a ++ b = c ++ d)
    (hcount : a.count '\n' ≤ c.count '\n')
    (hedge : (∀ x ∈ a.getLast?, x = '\n') ∨ ∀ x ∈ d.head?, x = '\n') : ∃ e, c = a ++ e ∧ b = e ++ d := by
  rcases List.append_eq_append_iff.mp h with he | ⟨e, rfl, rfl⟩
  · exact he
  · have hnil : e = [] := by
      by_contra hne
      have hmem : '\n' ∈ e := by
        rcases hedge with hlast | hhead
        · rw [← hlast _ (by rw [List.getLast?_append_of_ne_nil _ hne, List.getLast?_eq_some_getLast hne]; rfl)]
          exact List.getLast_mem hne
        · rw [← hhead _ (by rw [List.head?_append_of_ne_nil _ hne, List.head?_eq_some_head hne]; rfl)]
          exact List.head_mem hne
      rw [List.count_append] at hcount
      have hpos := List.count_pos_iff.mpr hmem
      omega
    exact ⟨[], by rw [hnil]; simp, by rw [hnil]; rfl⟩

namespace Source

variable {source : Source}

theorem length_lineStarts (source : Source) : source.lineStarts.length = source.text.count '\n' + 1 := by
  rw [source.lineStarts_eq, List.length_cons, length_lineStartsAfter]

theorem lineCount_le (source : Source) : source.lineCount ≤ source.lineStarts.length := by
  rw [source.lineCount_eq]
  split_ifs
  · exact Nat.sub_le _ _
  · exact Nat.le_refl _

/-- Before a line stand as many line feeds as there are lines before it, the last of them right before it. -/
theorem exists_lineStart (source : Source) {k : Nat} (h : k < source.lineStarts.length) :
    ∃ left right, source.text = left ++ right ∧ source.lineStarts[k]? = some (Text.size left) ∧
      left.count '\n' = k ∧ ∀ c ∈ left.getLast?, c = '\n' := by
  cases k with
  | zero => exact ⟨[], source.text, rfl, by rw [source.lineStarts_eq]; rfl, rfl, by simp⟩
  | succ k =>
    obtain ⟨o, hstart⟩ : ∃ o, source.lineStarts[k + 1]? = some o := ⟨_, List.getElem?_eq_getElem h⟩
    have hafter := hstart
    rw [source.lineStarts_eq, List.getElem?_cons_succ] at hafter
    obtain ⟨before, after, htext, ho, hcount⟩ := exists_of_getElem?_lineStartsAfter _ hafter
    refine ⟨before ++ ['\n'], after, by rw [htext, List.append_assoc]; rfl, ?_, by simp [hcount], by simp⟩
    rw [hstart, ho, Text.size_append, Nat.zero_add]
    rfl

/-- A line ends before a line feed or with the text, and not before an earlier line starts. -/
theorem exists_lineStop (source : Source) {k : Nat} (h : k < source.lineStarts.length) :
    ∃ left right, source.text = left ++ right ∧ left.count '\n' = k ∧ (∀ c ∈ right.head?, c = '\n') ∧
      ((source.lineStarts[k + 1]? = none ∧ Text.size left = source.text.size) ∨
        source.lineStarts[k + 1]? = some (Text.size left + 1)) ∧
      ∀ before after, source.text = before ++ after → before.count '\n' ≤ k → Text.size before ≤ Text.size left := by
  cases hnext : source.lineStarts[k + 1]? with
  | none =>
    refine ⟨source.text, [], (List.append_nil _).symm, ?_, by simp, .inl ⟨rfl, rfl⟩, ?_⟩
    · rw [List.getElem?_eq_none_iff] at hnext
      have hlength := source.length_lineStarts
      omega
    · intro before after hsplit _
      rw [hsplit, Text.size_append]
      omega
  | some next =>
    rw [source.lineStarts_eq, List.getElem?_cons_succ] at hnext
    obtain ⟨left, right, htext, rfl, rfl⟩ := exists_of_getElem?_lineStartsAfter _ hnext
    refine ⟨left, '\n' :: right, htext, rfl, by simp, .inr (by rw [Nat.zero_add]), ?_⟩
    intro before after hsplit hcount
    obtain ⟨e, rfl, -⟩ := Text.exists_append_of_count_le (hsplit.symm.trans htext) hcount (.inr (by simp))
    rw [Text.size_append]
    omega

/-- The bytes of some lines, by the offsets at which the first one and the one behind the last one start. -/
theorem lineSpan?_eq {first last start stop : Nat} (hle : first ≤ last) (hlast : last < source.lineCount)
    (hstart : source.lineStarts[first]? = some start)
    (hstop : (source.lineStarts[last + 1]? = none ∧ stop = source.text.size) ∨
      source.lineStarts[last + 1]? = some (stop + 1))
    (hspan : start ≤ stop) : source.lineSpan? (first + 1) (last + 1) = some ⟨start, stop⟩ := by
  have hclampFirst : min (max (first + 1) 1) (max source.lineCount 1) = first + 1 := by omega
  have hclampLast : max (min (max (last + 1) 1) (max source.lineCount 1)) (first + 1) = last + 1 := by omega
  rw [lineSpan?]
  simp only [hclampFirst, hclampLast, Text.before?, Option.bind_eq_bind, Option.bind_some, hstart,
    Option.getD_some]
  rcases hstop with ⟨hnone, rfl⟩ | hsome
  · simp only [hnone]
    rw [Nat.min_eq_left hspan]
    rfl
  · simp only [hsome, Option.bind_some]
    rw [Nat.min_eq_left hspan]
    rfl

/-- **The bytes of some lines**: the lines before the first one end before them, and of the lines themselves all but
the last end within. On both sides stands a line feed or nothing. -/
theorem exists_lineParts {first last : Nat} (hfirst : 1 ≤ first) (hle : first ≤ last)
    (hlast : last ≤ source.lineCount) :
    ∃ left middle right, source.text = left ++ middle ++ right ∧
      source.lineSpan? first last = some ⟨Text.size left, Text.size (left ++ middle)⟩ ∧
      left.count '\n' + 1 = first ∧ (left ++ middle).count '\n' + 1 = last ∧
      (∀ c ∈ left.getLast?, c = '\n') ∧ ∀ c ∈ right.head?, c = '\n' := by
  have hlength := source.lineCount_le
  obtain ⟨i, rfl⟩ : ∃ i, first = i + 1 := ⟨first - 1, by omega⟩
  obtain ⟨j, rfl⟩ : ∃ j, last = j + 1 := ⟨last - 1, by omega⟩
  obtain ⟨left, right, hleft, hstart, hcount, hbefore⟩ := source.exists_lineStart (k := i) (by omega)
  obtain ⟨whole, right', hwhole, hcount', hafter, hstop, hbehind⟩ := source.exists_lineStop (k := j) (by omega)
  have hsizes := hbehind left right hleft (by omega)
  obtain ⟨a, middle, b, htext, ha, hb⟩ :=
    (show source.text.IsBoundary (Text.size left) from ⟨left, right, hleft, rfl⟩).exists_parts
      (show source.text.IsBoundary (Text.size whole) from ⟨whole, right', hwhole, rfl⟩) hsizes
  obtain ⟨rfl, rfl⟩ : whole = a ++ middle ∧ right' = b := Text.append_inj_of_size (hwhole.symm.trans htext) hb
  rw [List.append_assoc] at htext
  obtain rfl : left = a := (Text.append_inj_of_size (hleft.symm.trans htext) ha).1
  exact ⟨left, middle, right', by rw [htext, List.append_assoc],
    lineSpan?_eq (by omega) (by omega) hstart hstop hsizes, by rw [hcount], by rw [hcount'], hbefore, hafter⟩

end Source

/-! ### Lines of the code -/

/-- Where a view keeps the lines of its text, no part of it has fewer line feeds than the part of the text that it
stands for. -/
theorem CodeView.KeepsLines.count_left {v w a b : Text} (h : KeepsLines (v ++ w) (a ++ b)) (hv : Masks v a)
    (hw : Masks w b) : v.count '\n' = a.count '\n' := by
  have hlength := h.lines.length_eq
  rw [Text.length_segments, Text.length_segments, List.count_append, List.count_append] at hlength
  have hleft := hv.count_newline_le
  have hright := hw.count_newline_le
  omega

namespace Source

variable {source : Source}

/-- The line of a character of the code that is no space, counted in the line feeds of the code. -/
theorem lineAt_size_code {v w : Text} {c : Char} (h : CodeView.KeepsLines source.code source.text)
    (hcode : source.code = v ++ c :: w) (hc : c ≠ ' ') : source.lineAt v.size = v.count '\n' + 1 := by
  obtain ⟨before, after, htext, hv, hw⟩ := source.code_masks.exists_around hcode hc
  rw [hcode, htext] at h
  rw [h.count_left hv (.keep c hw), hv.size_eq, source.lineAt_size htext]

theorem codeLines?_eq {first last : Nat} {left code right : Text} (hcode : source.code = left ++ code ++ right)
    (hspan : source.lineSpan? first last = some ⟨Text.size left, Text.size (left ++ code)⟩) :
    source.codeLines? first last = some code := by
  rw [codeLines?, hspan]
  show source.code.slice? (Text.size left) (Text.size (left ++ code)) = some code
  rw [hcode, Text.slice?_size]

/-- The code of some lines starts and ends with them. -/
theorem exists_codeParts (h : CodeView.KeepsLines source.code source.text) {first last : Nat} (hfirst : 1 ≤ first)
    (hle : first ≤ last) (hlast : last ≤ source.lineCount) :
    ∃ left code right, source.code = left ++ code ++ right ∧
      source.lineSpan? first last = some ⟨Text.size left, Text.size (left ++ code)⟩ ∧
      source.codeLines? first last = some code ∧
      left.count '\n' + 1 = first ∧ (left ++ code).count '\n' + 1 = last := by
  obtain ⟨left, middle, right, htext, hspan, hcount, hcount', -⟩ := exists_lineParts hfirst hle hlast
  have hmasks := source.code_masks
  rw [htext] at hmasks
  obtain ⟨v, z, hcode, hv, hz⟩ := hmasks.split
  obtain ⟨x, y, rfl, hx, hy⟩ := hv.split
  rw [hcode, htext] at h
  have hlarge := h.count_left hv hz
  rw [List.append_assoc, List.append_assoc] at h
  have hsmall := h.count_left hx (hy.append hz)
  have hspan' : source.lineSpan? first last = some ⟨Text.size x, Text.size (x ++ y)⟩ := by
    rw [hspan, hx.size_eq, hv.size_eq]
  exact ⟨x, y, z, hcode, hspan', codeLines?_eq hcode hspan', by rw [hsmall, hcount], by rw [hlarge, hcount']⟩

end Source

/-! ### Mentions and the lines of the source -/

/-- What stands before an identifier that is met stands before all that are met later. -/
theorem Scans.starts {left rest : Text} {found : List (Text × Text)} (h : Scans left rest found) :
    (∀ t ∈ found, left <+: t.1) ∧ found.Pairwise fun a b => a.1 <+: b.1 := by
  induction h with
  | done left => exact ⟨fun t ht => (List.not_mem_nil ht).elim, .nil⟩
  | @skip left rest c found hc h ih =>
    exact ⟨fun t ht => (List.prefix_append left [c]).trans (ih.1 t ht), ih.2⟩
  | @word left tail rest c found hc htail hrest h ih =>
    have hlater : ∀ t ∈ found, left <+: t.1 := fun t ht => (List.prefix_append left (c :: tail)).trans (ih.1 t ht)
    refine ⟨?_, List.pairwise_cons.mpr ⟨hlater, ih.2⟩⟩
    intro t ht
    rcases List.mem_cons.mp ht with rfl | ht
    · exact List.prefix_rfl
    · exact hlater t ht

/-- The name of a mention, with its line. -/
def Mention.entry (m : Mention) : String × Nat :=
  (String.ofList m.word, m.line)

/-- The lines of mentions do not go back. -/
theorem mentions_lines_ascend (line : Nat) (text : Text) :
    (mentions line text).Pairwise fun a b => a.line ≤ b.line := by
  obtain ⟨found, hfound⟩ := scans_of_text text
  rw [hfound.mentions_eq line, List.pairwise_map]
  refine hfound.starts.2.imp ?_
  intro a b hab
  exact Nat.add_le_add_left (hab.sublist.count_le '\n') line

/-- They stay within the lines of the text. -/
theorem line_of_mem_mentions {line : Nat} {text : Text} {m : Mention} (hm : m ∈ mentions line text) :
    line ≤ m.line ∧ m.line ≤ line + text.count '\n' := by
  obtain ⟨found, hfound⟩ := scans_of_text text
  rw [hfound.mentions_eq line] at hm
  obtain ⟨t, ht, rfl⟩ := List.mem_map.mp hm
  obtain ⟨after, hsplit, -⟩ := hfound.sound t ht
  rw [List.nil_append] at hsplit
  refine ⟨Nat.le_add_right _ _, Nat.add_le_add_left ?_ line⟩
  rw [hsplit, List.count_append, List.count_append]
  omega

/-- **The lines that are counted are those of the source**, for code that starts with a line. -/
theorem Source.mentions_eq_tokens {source : Source} (h : CodeView.KeepsLines source.code source.text)
    {left code right : Text} (hcode : source.code = left ++ code ++ right) :
    (mentions (left.count '\n' + 1) code).map Mention.entry
      = (tokens code).map fun t => (t.name, source.lineAt (Text.size left + t.offset)) := by
  obtain ⟨found, hfound⟩ := scans_of_text code
  rw [hfound.mentions_eq, hfound.tokens_eq, List.map_map, List.map_map]
  apply List.map_congr_left
  intro t ht
  obtain ⟨after, hsplit, ⟨c, tail, hword, hc, -⟩, -⟩ := hfound.sound t ht
  have hspace : c ≠ ' ' := by
    intro hspace
    rw [hspace] at hc
    exact absurd hc (by decide)
  have hat : source.code = (left ++ t.1) ++ c :: (tail ++ after ++ right) := by
    rw [hcode, ← List.nil_append code, hsplit, hword]
    simp
  have hline := Source.lineAt_size_code h hat hspace
  rw [Text.size_append, List.count_append] at hline
  show (String.ofList t.2, left.count '\n' + 1 + t.1.count '\n')
    = (String.ofList t.2, source.lineAt (Text.size left + Text.size t.1))
  rw [hline, Nat.add_right_comm]

/-! ### Edges that show names with their lines -/

/-- The edges of a caller show the wanted ones among some names with lines: one edge for each name, in the order of
first occurrence, with the lines of all its occurrences. -/
structure EdgesOf (caller : SymbolId) (wanted : String → Prop) (seen : List (String × Nat))
    (edges : List CallEdge) : Prop where
  caller : ∀ edge ∈ edges, edge.caller = caller
  callee_iff : ∀ name, (∃ edge ∈ edges, edge.callee = name) ↔ wanted name ∧ name ∈ seen.map Prod.fst
  ordered : edges.Pairwise fun a b =>
    (seen.map Prod.fst).idxOf a.callee < (seen.map Prod.fst).idxOf b.callee
  ascending : ∀ edge ∈ edges, edge.lines.Pairwise (· < ·)
  line_iff : ∀ edge ∈ edges, ∀ line, line ∈ edge.lines ↔ (edge.callee, line) ∈ seen

/-- An edge with a line more, unless it is the last one already. -/
def CallEdge.withLine (line : Nat) (edge : CallEdge) : CallEdge :=
  if edge.lines.getLast? == some line then edge else { edge with lines := edge.lines ++ [line] }

theorem CallEdge.withLine_callee (line : Nat) (edge : CallEdge) : (edge.withLine line).callee = edge.callee := by
  rw [withLine]
  split_ifs <;> rfl

theorem CallEdge.withLine_caller (line : Nat) (edge : CallEdge) : (edge.withLine line).caller = edge.caller := by
  rw [withLine]
  split_ifs <;> rfl

/-- A line that is not before the others is added once. -/
theorem CallEdge.withLine_lines {line : Nat} {edge : CallEdge} (hascending : edge.lines.Pairwise (· < ·))
    (hle : ∀ l ∈ edge.lines, l ≤ line) :
    (edge.withLine line).lines.Pairwise (· < ·) ∧ ∀ l, l ∈ (edge.withLine line).lines ↔ l ∈ edge.lines ∨ l = line := by
  rw [withLine]
  split_ifs with hlast
  · rw [beq_iff_eq] at hlast
    refine ⟨hascending, fun l => ⟨.inl, fun h => h.elim id ?_⟩⟩
    intro hl
    rw [hl]
    exact List.mem_of_getLast? hlast
  · refine ⟨List.pairwise_append.mpr ⟨hascending, List.pairwise_singleton _ _, ?_⟩, fun l => ?_⟩
    · -- a line that were equal would stand at the end
      intro l hl other hother
      rw [List.mem_singleton] at hother
      rw [hother]
      refine Nat.lt_of_le_of_ne (hle l hl) ?_
      intro hline
      obtain ⟨before, after, hsplit⟩ := List.append_of_mem hl
      apply hlast
      rw [beq_iff_eq, hsplit]
      cases after with
      | nil => rw [List.getLast?_concat, hline]
      | cons x after =>
        have hx := hle x (by rw [hsplit]; simp)
        rw [hsplit, List.pairwise_append] at hascending
        have hlt := (List.pairwise_cons.mp hascending.2.1).1 x List.mem_cons_self
        omega
    · rw [List.mem_append, List.mem_singleton]

/-- A mention of a name without an edge draws one. -/
theorem addMention_of_not_mem {caller : SymbolId} {name : String} {line : Nat} {edges : List CallEdge}
    (h : ∀ edge ∈ edges, edge.callee ≠ name) :
    addMention caller name line edges = edges ++ [⟨caller, name, [line]⟩] := by
  induction edges with
  | nil => rfl
  | cons edge rest ih =>
    rw [addMention, if_neg (by rw [beq_iff_eq]; exact h edge List.mem_cons_self),
      ih fun e he => h e (List.mem_cons_of_mem edge he), List.cons_append]

/-- A mention of a name that has an edge adds its line there. -/
theorem addMention_of_mem {caller : SymbolId} {name : String} {line : Nat} {edges : List CallEdge}
    (hapart : edges.Pairwise fun a b => a.callee ≠ b.callee) (h : ∃ edge ∈ edges, edge.callee = name) :
    addMention caller name line edges
      = edges.map fun edge => if edge.callee = name then edge.withLine line else edge := by
  induction edges with
  | nil =>
    obtain ⟨edge, hedge, -⟩ := h
    cases hedge
  | cons edge rest ih =>
    obtain ⟨hfirst, hrest⟩ := List.pairwise_cons.mp hapart
    rw [addMention, List.map_cons]
    by_cases hname : edge.callee = name
    · -- the edges behind have other names
      have hothers : rest.map (fun e => if e.callee = name then e.withLine line else e) = rest := by
        rw [List.map_congr_left (g := id), List.map_id]
        intro e he
        exact if_neg fun hcallee => hfirst e he (hname.trans hcallee.symm)
      rw [if_pos (by rw [beq_iff_eq]; exact hname), if_pos hname, hothers]
      rfl
    · obtain ⟨e, he, hcallee⟩ := h
      have he : e ∈ rest := by
        rcases List.mem_cons.mp he with rfl | he
        · exact absurd hcallee hname
        · exact he
      rw [if_neg (by rw [beq_iff_eq]; exact hname), if_neg hname, ih hrest ⟨e, he, hcallee⟩]

namespace EdgesOf

variable {caller : SymbolId} {wanted : String → Prop} {seen : List (String × Nat)} {edges : List CallEdge}

theorem nil (caller : SymbolId) (wanted : String → Prop) : EdgesOf caller wanted [] [] where
  caller := fun edge hedge => (List.not_mem_nil hedge).elim
  callee_iff := by simp
  ordered := .nil
  ascending := fun edge hedge => (List.not_mem_nil hedge).elim
  line_iff := fun edge hedge => (List.not_mem_nil hedge).elim

theorem wanted_of_mem (h : EdgesOf caller wanted seen edges) {edge : CallEdge} (hedge : edge ∈ edges) :
    wanted edge.callee ∧ edge.callee ∈ seen.map Prod.fst :=
  (h.callee_iff edge.callee).mp ⟨edge, hedge, rfl⟩

theorem apart (h : EdgesOf caller wanted seen edges) : edges.Pairwise fun a b => a.callee ≠ b.callee := by
  refine h.ordered.imp ?_
  intro a b hlt hab
  rw [hab] at hlt
  exact Nat.lt_irrefl _ hlt

/-- A later entry does not change the place of the names that have an edge. -/
theorem idxOf_concat (h : EdgesOf caller wanted seen edges) (entry : String × Nat) {edge : CallEdge}
    (hedge : edge ∈ edges) :
    ((seen ++ [entry]).map Prod.fst).idxOf edge.callee = (seen.map Prod.fst).idxOf edge.callee := by
  rw [List.map_append]
  exact List.idxOf_append_of_mem (h.wanted_of_mem hedge).2

theorem ordered_concat (h : EdgesOf caller wanted seen edges) (entry : String × Nat) :
    edges.Pairwise fun a b => ((seen ++ [entry]).map Prod.fst).idxOf a.callee
      < ((seen ++ [entry]).map Prod.fst).idxOf b.callee := by
  refine h.ordered.imp_of_mem ?_
  intro a b ha hb hab
  rw [h.idxOf_concat entry ha, h.idxOf_concat entry hb]
  exact hab

/-- A name that is not wanted changes nothing. -/
theorem pass (h : EdgesOf caller wanted seen edges) {name : String} (hname : ¬ wanted name) (line : Nat) :
    EdgesOf caller wanted (seen ++ [(name, line)]) edges where
  caller := h.caller
  callee_iff := by
    intro other
    rw [h.callee_iff, List.map_append, List.mem_append]
    refine and_congr_right fun hother => ⟨.inl, fun hmem => hmem.resolve_right ?_⟩
    intro hsame
    rw [List.mem_singleton.mp hsame] at hother
    exact hname hother
  ordered := h.ordered_concat _
  ascending := h.ascending
  line_iff := by
    intro edge hedge other
    rw [h.line_iff edge hedge, List.mem_append]
    refine ⟨.inl, fun hmem => hmem.resolve_right ?_⟩
    intro hsame
    have hcallee : edge.callee = name := congrArg Prod.fst (List.mem_singleton.mp hsame)
    exact hname (hcallee ▸ (h.wanted_of_mem hedge).1)

/-- A wanted name without an edge gets one. -/
theorem draw (h : EdgesOf caller wanted seen edges) {name : String} (hname : wanted name)
    (hnew : ∀ edge ∈ edges, edge.callee ≠ name) (line : Nat) :
    EdgesOf caller wanted (seen ++ [(name, line)]) (edges ++ [⟨caller, name, [line]⟩]) := by
  have hunseen : name ∉ seen.map Prod.fst := by
    intro hseen
    obtain ⟨edge, hedge, hcallee⟩ := (h.callee_iff name).mpr ⟨hname, hseen⟩
    exact hnew edge hedge hcallee
  constructor
  · intro edge hedge
    rcases List.mem_append.mp hedge with hedge | hedge
    · exact h.caller edge hedge
    · rw [List.mem_singleton.mp hedge]
  · intro other
    simp only [List.mem_append, List.mem_singleton, List.map_append, List.map_cons, List.map_nil, or_and_right,
      exists_or, exists_eq_left, h.callee_iff, and_or_left]
    refine or_congr Iff.rfl ⟨fun hsame => ⟨hsame ▸ hname, hsame.symm⟩, fun hsame => hsame.2.symm⟩
  · refine List.pairwise_append.mpr ⟨h.ordered_concat _, List.pairwise_singleton _ _, ?_⟩
    intro a ha b hb
    rw [List.mem_singleton.mp hb, h.idxOf_concat _ ha, List.map_append, List.idxOf_append_of_notMem hunseen]
    exact Nat.lt_add_right _ (List.idxOf_lt_length_of_mem (h.wanted_of_mem ha).2)
  · intro edge hedge
    rcases List.mem_append.mp hedge with hedge | hedge
    · exact h.ascending edge hedge
    · rw [List.mem_singleton.mp hedge]
      exact List.pairwise_singleton _ _
  · intro edge hedge other
    rcases List.mem_append.mp hedge with hedge | hedge
    · rw [h.line_iff edge hedge, List.mem_append]
      refine ⟨.inl, fun hmem => hmem.resolve_right ?_⟩
      intro hsame
      exact hnew edge hedge (congrArg Prod.fst (List.mem_singleton.mp hsame))
    · rw [List.mem_singleton.mp hedge, List.mem_append]
      have hnone : (name, other) ∉ seen := fun hmem => hunseen (List.mem_map_of_mem hmem)
      simp [hnone]

/-- A wanted name that has an edge gets a line there, if the lines do not go back. -/
theorem extend (h : EdgesOf caller wanted seen edges) {name : String} {line : Nat}
    (hold : ∃ edge ∈ edges, edge.callee = name) (hlines : ∀ entry ∈ seen, entry.2 ≤ line) :
    EdgesOf caller wanted (seen ++ [(name, line)])
      (edges.map fun edge => if edge.callee = name then edge.withLine line else edge) := by
  have hcallee : ∀ edge : CallEdge,
      (if edge.callee = name then edge.withLine line else edge).callee = edge.callee := by
    intro edge
    split_ifs
    · exact edge.withLine_callee line
    · rfl
  have hbelow : ∀ edge ∈ edges, ∀ l ∈ edge.lines, l ≤ line := fun edge hedge l hl =>
    hlines _ ((h.line_iff edge hedge l).mp hl)
  constructor
  · intro edge hedge
    obtain ⟨old, hold, rfl⟩ := List.mem_map.mp hedge
    split_ifs
    · rw [CallEdge.withLine_caller]
      exact h.caller old hold
    · exact h.caller old hold
  · intro other
    rw [List.map_append, List.mem_append]
    constructor
    · intro hother
      obtain ⟨edge, hedge, rfl⟩ := hother
      obtain ⟨old, hold, rfl⟩ := List.mem_map.mp hedge
      rw [hcallee]
      exact ⟨(h.wanted_of_mem hold).1, .inl (h.wanted_of_mem hold).2⟩
    · intro hother
      obtain ⟨hother, hseen⟩ := hother
      have hseen : other ∈ seen.map Prod.fst := by
        rcases hseen with hseen | hsame
        · exact hseen
        · obtain ⟨edge, hedge, hname⟩ := hold
          rw [List.mem_singleton.mp hsame]
          exact hname ▸ (h.wanted_of_mem hedge).2
      obtain ⟨edge, hedge, hname⟩ := (h.callee_iff other).mpr ⟨hother, hseen⟩
      exact ⟨_, List.mem_map_of_mem hedge, (hcallee edge).trans hname⟩
  · rw [List.pairwise_map]
    simp only [hcallee]
    exact h.ordered_concat _
  · intro edge hedge
    obtain ⟨old, hold, rfl⟩ := List.mem_map.mp hedge
    split_ifs
    · exact (CallEdge.withLine_lines (h.ascending old hold) (hbelow old hold)).1
    · exact h.ascending old hold
  · intro edge hedge other
    obtain ⟨old, hold, rfl⟩ := List.mem_map.mp hedge
    rw [hcallee, List.mem_append, List.mem_singleton, ← h.line_iff old hold, Prod.mk.injEq]
    split_ifs with hname
    · rw [(CallEdge.withLine_lines (h.ascending old hold) (hbelow old hold)).2, and_iff_right hname]
    · exact ⟨.inl, fun hmem => hmem.resolve_right fun hsame => hname hsame.1⟩

/-- **One mention** keeps edges that show all mentions so far. -/
theorem addKnown {s : Symbol} {known : String → Bool} {m : Mention}
    (h : EdgesOf s.id (fun name => known name = true ∧ name ≠ s.name) seen edges)
    (hlines : ∀ entry ∈ seen, entry.2 ≤ m.line) :
    EdgesOf s.id (fun name => known name = true ∧ name ≠ s.name) (seen ++ [m.entry])
      (CodeAtlas.addKnown s known edges m) := by
  rw [CodeAtlas.addKnown]
  by_cases hwanted : known (String.ofList m.word) = true ∧ String.ofList m.word ≠ s.name
  · rw [if_neg (by simp [hwanted])]
    by_cases hold : ∃ edge ∈ edges, edge.callee = String.ofList m.word
    · rw [addMention_of_mem h.apart hold]
      exact h.extend hold hlines
    · have hnew : ∀ edge ∈ edges, edge.callee ≠ String.ofList m.word := fun edge hedge hcallee =>
        hold ⟨edge, hedge, hcallee⟩
      rw [addMention_of_not_mem hnew]
      exact h.draw hwanted hnew m.line
  · rw [if_pos]
    · exact h.pass hwanted m.line
    · rw [not_and_or, not_not] at hwanted
      rw [Bool.or_eq_true, beq_iff_eq, Bool.not_eq_true']
      exact hwanted.symm.imp id fun hunknown => by simpa using hunknown

end EdgesOf

/-- **All mentions**: if their lines do not go back, the edges that are drawn show them. -/
theorem edgesOf_foldl (s : Symbol) (known : String → Bool) (found : List Mention)
    (hlines : found.Pairwise fun a b => a.line ≤ b.line) :
    EdgesOf s.id (fun name => known name = true ∧ name ≠ s.name) (found.map Mention.entry)
      (found.foldl (addKnown s known) []) := by
  induction found using List.reverseRecOn with
  | nil => exact EdgesOf.nil _ _
  | append_singleton found m ih =>
    rw [List.pairwise_append] at hlines
    obtain ⟨hbefore, -, hlast⟩ := hlines
    rw [List.foldl_append, List.map_append]
    apply (ih hbefore).addKnown
    intro entry hentry
    obtain ⟨m', hm', rfl⟩ := List.mem_map.mp hentry
    exact hlast m' hm' m (List.mem_singleton_self m)

/-! ### The edges of a symbol -/

/-- The code of a symbol is that of its lines in the stored source. -/
theorem SymbolTable.codeOf_eq {table : SymbolTable} {s : Symbol} {source : Source} {code : Text}
    (hsource : table.source? s.file = some source) (hcode : source.codeLines? s.startLine s.endLine = some code) :
    table.codeOf s = code := by
  rw [codeOf, hsource]
  show (source.codeLines? s.startLine s.endLine).getD [] = code
  rw [hcode, Option.getD_some]

/-- **The edges of a symbol are the mentions in its code.** Take sources under keys of their own whose code has all
line feeds of the text, and a symbol of their table. Its source has code for the lines of the symbol. The edges of the
symbol show the tokens of this code as far as they are known names other than its own: one edge for each, in the order
of first occurrence, with the ascending lines at which the occurrences stand in the source. All of them are lines of
the symbol. -/
theorem edges_are_mentions (sources : List Source) (limits : Limits) (hkeys : (sources.map Source.key).Nodup)
    (hkept : ∀ source ∈ sources, ∀ i : Nat, source.text.bytes[i]? = some '\n'.toUInt8 →
      source.code.bytes[i]? = some '\n'.toUInt8)
    (s : Symbol) (hs : s ∈ (SymbolTable.ofSources sources).symbols) :
    ∃ source ∈ sources, source.key = s.file ∧ ∃ span code,
      source.lineSpan? s.startLine s.endLine = some span ∧
      source.codeLines? s.startLine s.endLine = some code ∧
      EdgesOf s.id (fun name => (SymbolTable.ofSources sources).containsName name = true ∧ name ≠ s.name)
        ((tokens code).map fun t => (t.name, source.lineAt (span.start + t.offset)))
        ((CallGraph.ofSources sources limits).edgesOf s) ∧
      ∀ edge ∈ (CallGraph.ofSources sources limits).edgesOf s, ∀ line ∈ edge.lines,
        s.startLine ≤ line ∧ line ≤ s.endLine := by
  obtain ⟨source, hsource, hcut, hstored⟩ := SymbolTable.exists_source_of_mem hkeys hs
  have hkeeps := source.code_masks.keepsLines (hkept source hsource)
  obtain ⟨left, code, right, hcode, hspan, hlines, hfirst, hlast⟩ :=
    Source.exists_codeParts hkeeps hcut.one_le_startLine hcut.startLine_le_endLine hcut.endLine_le_lineCount
  have hedges : EdgesOf s.id
      (fun name => (SymbolTable.ofSources sources).containsName name = true ∧ name ≠ s.name)
      ((mentions s.startLine code).map Mention.entry) ((CallGraph.ofSources sources limits).edgesOf s) := by
    rw [CallGraph.edgesOf_ofSources limits hs, SymbolTable.callEdges_eq_foldl,
      SymbolTable.codeOf_eq hstored hlines]
    exact edgesOf_foldl s _ _ (mentions_lines_ascend _ _)
  refine ⟨source, hsource, hcut.file.symm, _, code, hspan, hlines, ?_, ?_⟩
  · rw [← Source.mentions_eq_tokens hkeeps hcode, hfirst]
    exact hedges
  · intro edge hedge line hline
    obtain ⟨m, hm, hentry⟩ := List.mem_map.mp ((hedges.line_iff edge hedge line).mp hline)
    obtain ⟨hge, hle⟩ := line_of_mem_mentions hm
    rw [show m.line = line from congrArg Prod.snd hentry] at hge hle
    rw [List.count_append] at hlast
    omega

/-- A function that mentions two others on several lines, itself, and a name which the source does not explain. -/
def repeatingSource : Source :=
  Source.ofText "a.c" .c
    "int f() \x7b g(); // h()\n  g(h(k(f)));\n  g();\n\x7d\nint g() \x7b \x7d\nint h() \x7b \x7d\n".toList

/-- The function that mentions. -/
def repeatingSymbol : Symbol :=
  ⟨"f", .function, "a.c", 1, 4, "int f()", "int f() \x7b g(); // h()\n  g(h(k(f)));\n  g();\n\x7d"⟩

/-- One edge leads to each of the other functions, and shows every line that mentions it once. -/
theorem repeatingSource_edges :
    ([repeatingSource].map Source.key).Nodup ∧
    (∀ source ∈ [repeatingSource], ∀ i : Nat, source.text.bytes[i]? = some '\n'.toUInt8 →
      source.code.bytes[i]? = some '\n'.toUInt8) ∧
    repeatingSymbol ∈ (SymbolTable.ofSources [repeatingSource]).symbols ∧
    (CallGraph.ofSources [repeatingSource] {}).edgesOf repeatingSymbol
      = [⟨repeatingSymbol.id, "g", [1, 2, 3]⟩, ⟨repeatingSymbol.id, "h", [2]⟩] ∧
    ∃ source ∈ [repeatingSource], source.key = repeatingSymbol.file ∧ ∃ span code,
      source.lineSpan? 1 4 = some span ∧ source.codeLines? 1 4 = some code ∧
      EdgesOf repeatingSymbol.id
        (fun name => (SymbolTable.ofSources [repeatingSource]).containsName name = true ∧ name ≠ "f")
        ((tokens code).map fun t => (t.name, source.lineAt (span.start + t.offset)))
        ((CallGraph.ofSources [repeatingSource] {}).edgesOf repeatingSymbol) := by
  have hkeys : ([repeatingSource].map Source.key).Nodup := by decide
  have hkept : ∀ source ∈ [repeatingSource], ∀ i : Nat, source.text.bytes[i]? = some '\n'.toUInt8 →
      source.code.bytes[i]? = some '\n'.toUInt8 := by
    intro source hsource i hi
    rw [List.mem_singleton.mp hsource] at hi ⊢
    have hfeeds : ∀ i < repeatingSource.text.bytes.length, repeatingSource.text.bytes[i]? = some '\n'.toUInt8 →
        repeatingSource.code.bytes[i]? = some '\n'.toUInt8 := by decide +kernel
    exact hfeeds i (List.getElem?_eq_some_iff.mp hi).1 hi
  have hfirst : (SymbolTable.ofSources [repeatingSource]).symbols[0]? = some repeatingSymbol ∧
      (CallGraph.ofSources [repeatingSource] {}).edgesOf repeatingSymbol
        = [⟨repeatingSymbol.id, "g", [1, 2, 3]⟩, ⟨repeatingSymbol.id, "h", [2]⟩] := by decide +kernel
  have hmem := List.mem_of_getElem? hfirst.1
  obtain ⟨source, hsource, hkey, span, code, hspan, hcode, hedges, -⟩ :=
    edges_are_mentions [repeatingSource] {} hkeys hkept repeatingSymbol hmem
  exact ⟨hkeys, hkept, hmem, hfirst.2, source, hsource, hkey, span, code, hspan, hcode, hedges⟩

end CodeAtlas
