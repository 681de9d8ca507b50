import CodeAtlas.Proofs.HeaderFindings

/-!
# Indented blocks

An indented block is found line by line: it goes on over lines that are blank or indented deeper than its header,
and ends with the last of them that is not blank. This file says so of the search, and what the search sees of
the line of another header.

* `Source.lineSpan?_of_endsLine`: the bytes of one line;
* `Source.IndentedBy.codeLines_eq`: the code of the line on which a header starts;
* `Source.EndsBlock`, `Source.endsBlock_indentedBlockEndFrom`: which lines belong to a block;
* `Source.indentedBlockEnd_nested`: a block that starts inside of another ends inside of it.
-/

namespace CodeAtlas

/-! ### One line -/

theorem length_lineStartsAfter (text : Text) :
    ∀ offset, (lineStartsAfter offset text).length = text.count '\n' := by
  induction text with
  | nil => intro offset; rfl
  | cons c rest ih =>
    intro offset
    rw [lineStartsAfter, List.count_cons]
    split_ifs
    · rw [List.length_cons, ih]
    · exact ih _

theorem lineStartsAfter_append (left right : Text) :
    ∀ offset, lineStartsAfter offset (left ++ right)
      = lineStartsAfter offset left ++ lineStartsAfter (offset + left.size) right := by
  induction left with
  | nil => intro offset; rfl
  | cons c left ih =>
    intro offset
    simp only [List.cons_append, lineStartsAfter, ih, Text.size_cons, Nat.add_assoc]
    split_ifs <;> rfl

/-- The first line that starts behind a part of the text has the number of the line feeds in it. -/
theorem getElem?_lineStartsAfter (left right : Text) (offset : Nat) :
    (lineStartsAfter offset (left ++ right))[left.count '\n']?
      = (lineStartsAfter (offset + left.size) right).head? := by
  rw [lineStartsAfter_append, List.getElem?_append_right (Nat.le_of_eq (length_lineStartsAfter left offset)),
    length_lineStartsAfter, Nat.sub_self, List.head?_eq_getElem?]

namespace Source

variable {source : Source}

theorem getElem?_lineStarts {left right : Text} (htext : source.text = left ++ right) (hleft : left.EndsLine) :
    source.lineStarts[left.count '\n']? = some left.size := by
  rw [source.lineStarts_eq, htext]
  rcases hleft with rfl | ⟨line, rfl⟩
  · rfl
  · have hcount : (line ++ ['\n']).count '\n' = line.count '\n' + 1 := by simp
    rw [hcount, List.getElem?_cons_succ, List.append_assoc, getElem?_lineStartsAfter]
    simp [lineStartsAfter]

/-- The bytes of the line behind a line feed go on to the end of the text or to the next line feed. -/
theorem lineSpan?_of_endsLine {left right : Text} (htext : source.text = left ++ right)
    (hleft : left.EndsLine) (hright : right ≠ []) :
    ∃ stop, source.lineSpan? (source.lineAt left.size) (source.lineAt left.size) = some ⟨left.size, stop⟩ ∧
      left.size ≤ stop ∧ (stop = source.text.size ∨ source.text.StandsAt '\n' stop) := by
  have hline := source.lineAt_size htext
  have hcount : source.lineAt left.size ≤ source.lineCount := by
    apply source.lineAt_le_lineCount
    have hpos := Text.size_pos_of_ne_nil hright
    rw [htext, Text.size_append]
    omega
  have hstart := getElem?_lineStarts htext hleft
  have hnext : source.lineStarts[left.count '\n' + 1]? = (lineStartsAfter left.size right).head? := by
    rw [source.lineStarts_eq, htext, List.getElem?_cons_succ, getElem?_lineStartsAfter, Nat.zero_add]
  rw [hline] at hcount ⊢
  have hfirst : min (max (left.count '\n' + 1) 1) (max source.lineCount 1) = left.count '\n' + 1 := by omega
  simp only [lineSpan?, hfirst, Nat.max_self, Text.before?, Option.bind_eq_bind, Option.bind_some, hstart,
    Option.getD_some, hnext]
  cases hhead : (lineStartsAfter left.size right).head? with
  | none =>
    refine ⟨source.text.size, ?_, by rw [htext, Text.size_append]; omega, .inl rfl⟩
    simp [htext]
  | some next =>
    obtain ⟨before, after, hsplit, rfl⟩ := (mem_lineStartsAfter _).mp (List.mem_of_head? hhead)
    refine ⟨left.size + Text.size before, by simp, by omega, .inr ?_⟩
    exact ⟨left ++ before, after, by rw [htext, hsplit, List.append_assoc], by rw [Text.size_append]⟩

/-! ### The line of a header -/

/-- The Python view keeps all line feeds. -/
theorem standsAt_newline_of_python (hfamily : source.language.family = .python) {offset : Nat}
    (h : source.text.StandsAt '\n' offset) : source.code.StandsAt '\n' offset := by
  obtain ⟨before, after, htext, rfl⟩ := h
  rw [source.code_eq, hfamily, htext]
  rcases CodeView.standsAt_newline_or_breaks .python before after with hkept | ⟨start, -, hbreaks⟩
  · exact hkept
  · exact absurd rfl hbreaks.family_ne

theorem IndentedBy.headsLine {start indent : Nat} (h : source.IndentedBy start indent) :
    source.HeadsLine start := by
  obtain ⟨l, g, c, w, hcode, hstart, hline, hgap, hc, -⟩ := h
  refine ⟨l, g, c, w, hcode, hstart, hline, hgap, ?_⟩
  by_contra hblank
  rw [Bool.not_eq_false, Text.isAsciiBlank] at hblank
  simp only [Bool.or_eq_true, beq_iff_eq] at hblank
  rcases hblank with (((rfl | rfl) | rfl) | rfl) | rfl <;> exact absurd hc (by decide)

/-- The code of the line on which a header starts: its indentation, then a character that is no blank. -/
theorem IndentedBy.codeLines_eq (hfamily : source.language.family = .python) {start indent : Nat}
    (h : source.IndentedBy start indent) :
    ∃ (g : Text) (c : Char) (w : Text), source.codeLines (source.lineAt start) (source.lineAt start) = g ++ c :: w ∧
      Text.isBlank c = false ∧ indent = indentWidth g := by
  obtain ⟨a, g', c', b, htext, hstart, hline, -, -⟩ := h.headsLine.exists_text
  obtain ⟨l, g, c, w, hcode, hstart', -, hgap, hc, hindent⟩ := h
  have hsize : l.size = a.size := hstart'.symm.trans hstart
  rw [List.append_assoc] at htext
  obtain ⟨stop, hspan, hle, hstop⟩ := lineSpan?_of_endsLine htext hline (by simp)
  have hcode' : source.code = l ++ (g ++ [c]) ++ w := by rw [hcode]; simp
  -- the line does not end before the character
  have hlast : (l ++ (g ++ [c])).size ≤ stop ∧ source.code.IsBoundary stop := by
    rcases hstop with hend | hfeed
    · rw [hend, ← source.size_code]
      refine ⟨by rw [hcode', Text.size_append _ w]; omega, Text.isBoundary_end _⟩
    · have hkept := standsAt_newline_of_python hfamily hfeed
      refine ⟨?_, hkept.isBoundary⟩
      by_contra hlt
      rw [hcode'] at hkept
      have hmem := hkept.mem_middle (by omega) (by omega)
      rcases List.mem_append.mp hmem with hmem | hmem
      · rcases hgap _ hmem with h | h <;> cases h
      · rw [List.mem_singleton] at hmem
        rw [← hmem] at hc
        exact absurd hc (by decide)
  obtain ⟨before, middle, after, hsplit, hbefore, hstop'⟩ :=
    (show source.code.IsBoundary (l ++ (g ++ [c])).size from ⟨_, _, hcode', rfl⟩).exists_parts hlast.2 hlast.1
  have hparts : before = l ++ (g ++ [c]) := by
    rw [hcode', List.append_assoc _ middle] at hsplit
    exact (Text.append_inj_of_size hsplit hbefore).1.symm
  refine ⟨g, c, middle, ?_, hc, hindent⟩
  have hslice : source.code.slice? a.size stop = some (g ++ c :: middle) := by
    have hwhole : source.code = l ++ (g ++ c :: middle) ++ after := by rw [hsplit, hparts]; simp
    have hend : stop = (l ++ (g ++ c :: middle)).size := by rw [hstop', hparts]; simp
    rw [hwhole, hend, ← hsize, Text.slice?_size]
  rw [hstart, codeLines, codeLines?, hspan]
  simp [hslice]

end Source

/-! ### The lines of a block -/

/-- What follows a character that is neither a space nor a tab does not count for the indentation. -/
theorem indentFrom_append {c : Char} (hspace : c ≠ ' ') (htab : c ≠ '\t') (gap w : Text) :
    ∀ width, indentFrom width (gap ++ c :: w) = indentFrom width gap := by
  induction gap with
  | nil => intro width; simp [indentFrom, hspace, htab]
  | cons d gap ih => intro width; simp only [List.cons_append, indentFrom, ih]

namespace Source

variable {source : Source}

/-- The line holds no code. -/
def BlankLine (source : Source) (line : Nat) : Prop :=
  (Text.trim (source.codeLines line line)).isEmpty = true

/-- The line is blank or indented deeper. -/
def Continues (source : Source) (indent line : Nat) : Prop :=
  source.BlankLine line ∨ indent < indentWidth (source.codeLines line line)

/-- The line on which a header starts is not blank, and its indentation is that of the header. -/
theorem IndentedBy.line (hfamily : source.language.family = .python) {start indent : Nat}
    (h : source.IndentedBy start indent) :
    ¬ source.BlankLine (source.lineAt start) ∧
      indentWidth (source.codeLines (source.lineAt start) (source.lineAt start)) = indent := by
  obtain ⟨g, c, w, hline, hc, hindent⟩ := h.codeLines_eq hfamily
  have hne : ∀ {d : Char}, Text.isBlank d = true → c ≠ d := by
    intro d hd hcd
    rw [hcd, hd] at hc
    cases hc
  rw [BlankLine, hline, List.isEmpty_iff]
  refine ⟨Text.trim_ne_nil (List.mem_append_right g List.mem_cons_self) hc, ?_⟩
  rw [hindent, indentWidth, indentFrom_append (hne (by decide)) (hne (by decide)), indentWidth]

/-- The lines from `start` to before `stop` are searched for the rest of a block that has come to the line
`before`, and `last` is what is found: the block goes on over all lines up to `last`, and where it could go on
from there, no line holds code. -/
structure EndsBlock (source : Source) (indent before start stop last : Nat) : Prop where
  solid : last = before ∨ (start ≤ last ∧ last < stop ∧ ¬ source.BlankLine last)
  continues : ∀ line, start ≤ line → line ≤ last → source.Continues indent line
  maximal : ∀ line, last < line → start ≤ line → line < stop →
    (∀ between, start ≤ between → between ≤ line → source.Continues indent between) → source.BlankLine line

theorem endsBlock_indentedBlockEndFrom (source : Source) (indent count : Nat) :
    ∀ before start : Nat, before < start →
      source.EndsBlock indent before start (start + count)
        (source.indentedBlockEndFrom indent before (List.range' start count)) := by
  induction count with
  | zero =>
    intro before start hlt
    refine ⟨.inl rfl, ?_, ?_⟩
    · intro line hstart hlast
      rw [List.range'_zero, indentedBlockEndFrom] at hlast
      omega
    · intro line _ hstart hstop
      omega
  | succ count ih =>
    intro before start hlt
    rw [List.range'_succ, indentedBlockEndFrom]
    have hstop : start + (count + 1) = start + 1 + count := by omega
    rw [hstop]
    by_cases hblank : (Text.trim (source.codeLines start start)).isEmpty = true
    · -- a blank line is passed over
      rw [if_pos hblank]
      obtain ⟨hsolid, hcontinues, hmaximal⟩ := ih before (start + 1) (by omega)
      refine ⟨?_, ?_, ?_⟩
      · rcases hsolid with hsolid | ⟨hle, hlt, hsolid⟩
        · exact .inl hsolid
        · exact .inr ⟨by omega, hlt, hsolid⟩
      · intro line hstart hlast
        rcases Nat.eq_or_lt_of_le hstart with rfl | hstart
        · exact .inl hblank
        · exact hcontinues line hstart hlast
      · intro line hlast hstart hline hall
        rcases Nat.eq_or_lt_of_le hstart with rfl | hstart
        · exact hblank
        · exact hmaximal line hlast hstart hline fun b hb hb' => hall b (by omega) hb'
    · rw [if_neg hblank]
      by_cases hindent : indentWidth (source.codeLines start start) ≤ indent
      · -- the line ends the block
        rw [if_pos hindent]
        refine ⟨.inl rfl, fun line hstart hlast => by omega, ?_⟩
        intro line _ hstart _ hall
        rcases hall start (Nat.le_refl _) hstart with hcontinues | hdeeper
        · exact absurd hcontinues hblank
        · omega
      · -- the line belongs to the block
        rw [if_neg hindent]
        obtain ⟨hsolid, hcontinues, hmaximal⟩ := ih start (start + 1) (by omega)
        refine ⟨?_, ?_, ?_⟩
        · rcases hsolid with hsolid | ⟨hle, hlt, hsolid⟩
          · rw [hsolid]
            exact .inr ⟨Nat.le_refl _, by omega, hblank⟩
          · exact .inr ⟨by omega, hlt, hsolid⟩
        · intro line hstart hlast
          rcases Nat.eq_or_lt_of_le hstart with rfl | hstart
          · exact .inr (by omega)
          · exact hcontinues line hstart hlast
        · intro line hlast hstart hline hall
          have hstart' : start + 1 ≤ line := by
            rcases hsolid with hsolid | ⟨hle, -, -⟩
            · omega
            · omega
          exact hmaximal line hlast hstart' hline fun b hb hb' => hall b (by omega) hb'

theorem endsBlock_indentedBlockEnd (source : Source) (headerEnd indent : Nat) :
    source.EndsBlock indent headerEnd (headerEnd + 1) (headerEnd + 1 + (source.lineCount - headerEnd))
      (source.indentedBlockEnd headerEnd indent) :=
  source.endsBlock_indentedBlockEndFrom indent _ headerEnd (headerEnd + 1) (Nat.lt_succ_self headerEnd)

theorem le_indentedBlockEnd (source : Source) (headerEnd indent : Nat) :
    headerEnd ≤ source.indentedBlockEnd headerEnd indent := by
  rcases (source.endsBlock_indentedBlockEnd headerEnd indent).solid with heq | ⟨hle, -, -⟩
  · exact Nat.le_of_eq heq.symm
  · omega

/-- **Indented blocks nest.** A block whose header starts on a line of another block, and ends on one, ends inside of
that block. -/
theorem indentedBlockEnd_nested (hfamily : source.language.family = .python)
    {headerEnd indent start headerEnd' indent' : Nat} (hindent : source.IndentedBy start indent')
    (hafter : headerEnd < source.lineAt start)
    (hinside : source.lineAt start ≤ source.indentedBlockEnd headerEnd indent)
    (hle : source.lineAt start ≤ headerEnd') (hheader : headerEnd' ≤ source.indentedBlockEnd headerEnd indent)
    (hcount : headerEnd' ≤ source.lineCount) :
    source.indentedBlockEnd headerEnd' indent' ≤ source.indentedBlockEnd headerEnd indent := by
  have houter := source.endsBlock_indentedBlockEnd headerEnd indent
  have hinner := source.endsBlock_indentedBlockEnd headerEnd' indent'
  obtain ⟨hsolid, hwidth⟩ := hindent.line hfamily
  have hdeeper : indent < indent' := by
    rcases houter.continues _ hafter hinside with hblank | hlt
    · exact absurd hblank hsolid
    · rwa [hwidth] at hlt
  by_contra hlt
  rw [Nat.not_le] at hlt
  rcases hinner.solid with heq | ⟨hstart, hstop, hlast⟩
  · omega
  · -- the outer block could go on to the last line of the inner one
    refine hlast (houter.maximal _ hlt (by omega) (by omega) ?_)
    intro between hbetween hbetween'
    by_cases hle : between ≤ source.indentedBlockEnd headerEnd indent
    · exact houter.continues between hbetween hle
    · rcases hinner.continues between (by omega) hbetween' with hblank | hdeep
      · exact .inl hblank
      · exact .inr (by omega)

end Source

end CodeAtlas
