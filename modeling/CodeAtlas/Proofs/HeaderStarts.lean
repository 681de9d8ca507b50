import CodeAtlas.Extraction.Basic
import CodeAtlas.Proofs.CodeViewLines
import CodeAtlas.Proofs.PatternShapes
import CodeAtlas.Proofs.SourceLines

/-!
# Where a header starts

A header is found at the start of a line of the code. Its symbol starts at the first character of the text
there that is no ASCII blank. The text may hold anything where the code has a space, so this file shows that
the blanks passed over in the text never lead to another line.

* `Source.HeadsLine`: a line of the code starts with spaces and tabs, then a character that is no blank;
* `Source.HeadsLine.exists_blanks`: the blanks of the text there hold no line feed;
* `Header.symbol?_eq`: the symbol of a header starts on the line of the header.
-/

namespace CodeAtlas

/-- A line feed of the text stands in the code view too, or it breaks a literal. -/
theorem CodeView.standsAt_newline_or_breaks (family : RuleFamily) (before after : Text) :
    (codeView family (before ++ '\n' :: after)).StandsAt '\n' before.size ∨
      ∃ start, before = start ++ ['\'', '\\'] ∧ BreaksLiteral family start after := by
  by_cases hlost : ∃ start, before = start ++ ['\'', '\\'] ∧ BreaksLiteral family start after
  · exact .inr hlost
  · left
    obtain ⟨v, w, hview, hsize⟩ :=
      Text.getElem?_bytes_eq_newline_iff.mp ((codeView_newline_iff family before after).mpr hlost)
    exact ⟨v, w, hview, by rw [Text.size_eq_length_bytes, Text.size_eq_length_bytes, hsize]⟩

/-- A line starts behind the text: it is empty or its last character is a line feed. -/
def Text.EndsLine (text : Text) : Prop :=
  text = [] ∨ ∃ line, text = line ++ ['\n']

theorem Text.endsLine_of_startsLine {k : Place} (h : k.spot.startsLine = true) : k.before.EndsLine := by
  rcases List.eq_nil_or_concat k.before with hnil | ⟨line, c, hconcat⟩
  · exact .inl hnil
  · right
    rw [List.concat_eq_append] at hconcat
    simp only [Spot.startsLine, Place.spot, hconcat, List.getLast?_concat, beq_iff_eq] at h
    exact ⟨line, by rw [hconcat, h]⟩

namespace Source

/-- A line of the code starts at the offset, and the first character there that is neither a space nor a tab
is no ASCII blank. -/
def HeadsLine (source : Source) (start : Nat) : Prop :=
  ∃ (l g : Text) (c : Char) (w : Text), source.code = l ++ g ++ c :: w ∧ start = l.size ∧ l.EndsLine ∧
    (∀ d ∈ g, d = ' ' ∨ d = '\t') ∧ Text.isAsciiBlank c = false

variable {source : Source} {start : Nat}

/-- The text at the start of a header: what the code has spaces and tabs for can hold a line feed only behind a
backslash. -/
theorem HeadsLine.exists_text (h : source.HeadsLine start) :
    ∃ (a g : Text) (c : Char) (b : Text), source.text = a ++ g ++ c :: b ∧ start = a.size ∧ a.EndsLine ∧
      Text.isAsciiBlank c = false ∧ ∀ u v, g = u ++ '\n' :: v → u.getLast? = some '\\' := by
  obtain ⟨l, gap, c, w, hcode, rfl, hline, hgap, hc⟩ := h
  have hspace : c ≠ ' ' := by
    intro hspace
    rw [hspace] at hc
    cases hc
  obtain ⟨before, b, htext, hbefore, -⟩ := source.code_masks.exists_around hcode hspace
  -- the line feed in front of the header is one of the text
  obtain ⟨a, g, rfl, ha, hg, hline'⟩ : ∃ a g : Text, before = a ++ g ∧ CodeView.Masks l a ∧
      CodeView.Masks gap g ∧ a.EndsLine := by
    rcases hline with rfl | ⟨line, rfl⟩
    · exact ⟨[], before, rfl, .nil, hbefore, .inl rfl⟩
    · obtain ⟨a, g, rfl, ha, hg⟩ :=
        hbefore.exists_around (v := line) (w := gap) (c := '\n') (by simp) (by decide)
      exact ⟨a ++ ['\n'], g, by simp, ha.append (.keep '\n' .nil), hg, .inr ⟨a, rfl⟩⟩
  refine ⟨a, g, c, b, htext, ha.size_eq, hline', hc, ?_⟩
  intro u v huv
  have hsplit : source.text = (a ++ u) ++ '\n' :: (v ++ c :: b) := by rw [htext, huv]; simp
  rcases CodeView.standsAt_newline_or_breaks source.language.family (a ++ u) (v ++ c :: b) with
    hkept | ⟨before, hbefore, -⟩
  · -- the code has spaces and tabs there, so it has no line feed
    rw [← hsplit, ← source.code_eq, hcode, Text.size_append] at hkept
    have hmem := hkept.mem_middle (by rw [ha.size_eq]; omega) (by
      rw [Text.size_append, ha.size_eq, hg.size_eq, huv, Text.size_append, Text.size_cons,
        show '\n'.utf8Size = 1 from rfl]
      omega)
    rcases hgap '\n' hmem with h | h <;> cases h
  · have hbackslash : (a ++ u).getLast? = some '\\' := by rw [hbefore]; simp
    rcases List.eq_nil_or_concat u with rfl | ⟨u', d, rfl⟩
    · -- directly behind the line feed there is no backslash
      rw [List.append_nil] at hbackslash
      rcases hline' with rfl | ⟨line, rfl⟩
      · cases hbackslash
      · rw [List.getLast?_concat] at hbackslash
        cases hbackslash
    · rw [List.concat_eq_append] at hbackslash ⊢
      rwa [← List.append_assoc, List.getLast?_concat, ← List.getLast?_concat (l := u')] at hbackslash

/-- The ASCII blanks of the text at the start of a header hold no line feed. -/
theorem HeadsLine.exists_blanks (h : source.HeadsLine start) :
    ∃ (a b : Text), source.text = a ++ b ∧ start = a.size ∧ a.EndsLine ∧
      '\n' ∉ b.takeWhile Text.isAsciiBlank := by
  obtain ⟨a, g, c, b, htext, hstart, hline, hc, hnewline⟩ := h.exists_text
  refine ⟨a, g ++ c :: b, by rw [htext, List.append_assoc], hstart, hline, ?_⟩
  intro hmem
  obtain ⟨u, v, huv⟩ := List.append_of_mem hmem
  have hblank : ∀ d ∈ u ++ '\n' :: v, Text.isAsciiBlank d = true := by
    rw [← huv]
    exact List.all_eq_true.mp List.all_takeWhile
  -- the blanks end before the header's first character, so they lie in the gap
  have hgap : ∃ rest, g = u ++ '\n' :: rest := by
    have hsplit := List.takeWhile_append_dropWhile (p := Text.isAsciiBlank) (l := g ++ c :: b)
    rw [huv] at hsplit
    rcases List.append_eq_append_iff.mp hsplit with ⟨e, hg, -⟩ | ⟨e, he, htail⟩
    · exact ⟨v ++ e, by rw [hg]; simp⟩
    · cases e with
      | nil => exact ⟨v, by simpa using he.symm⟩
      | cons d e =>
        have hd : d = c := (List.cons.inj htail).1.symm
        have hmem : c ∈ u ++ '\n' :: v := by
          rw [he, hd]
          exact List.mem_append_right g List.mem_cons_self
        rw [hblank c hmem] at hc
        cases hc
  obtain ⟨rest, hg⟩ := hgap
  have hbackslash := hblank _ (List.mem_append_left _ (List.mem_of_getLast? (hnewline u rest hg)))
  cases hbackslash

end Source

/-- **The symbol of a header** stands on the lines that were found in the code, whatever the text holds where the
code has spaces. -/
theorem Header.symbol?_eq {source : Source} {h : Header} (hstart : source.HeadsLine h.start)
    (hstop : source.text.IsBoundary h.stop) :
    ∃ signature body,
      h.symbol? source = some
        { name := String.ofList h.name, kind := h.kind, file := source.key
          startLine := source.lineAt h.start, endLine := max h.endLine (source.lineAt h.start)
          signature := signature, body := body } := by
  obtain ⟨a, b, htext, ha, -, hnewline⟩ := hstart.exists_blanks
  have hblanks : ∀ c ∈ b.takeWhile Text.isAsciiBlank, Text.isAsciiBlank c = true :=
    List.all_eq_true.mp List.all_takeWhile
  have hsplit := List.takeWhile_append_dropWhile (p := Text.isAsciiBlank) (l := b)
  have htext' : source.text = a ++ b.takeWhile Text.isAsciiBlank ++ b.dropWhile Text.isAsciiBlank := by
    rw [List.append_assoc, hsplit, htext]
  have hsize : h.start + (b.takeWhile Text.isAsciiBlank).length
      = Text.size (a ++ b.takeWhile Text.isAsciiBlank) := by
    rw [Text.size_append, Text.size_eq_length_of_asciiBlank hblanks, ha]
  have hline := source.lineAt_eq_of_no_newline htext' hnewline
  -- the signature ends at a boundary: where the header does, or where it starts
  have hfrom : source.text.IsBoundary (Text.size (a ++ b.takeWhile Text.isAsciiBlank)) :=
    ⟨_, _, htext', rfl⟩
  have hto : source.text.IsBoundary
      (max (Text.size (a ++ b.takeWhile Text.isAsciiBlank)) (min h.stop source.text.size)) := by
    rw [Nat.min_eq_left hstop.le]
    rcases Nat.le_total h.stop (Text.size (a ++ b.takeWhile Text.isAsciiBlank)) with hle | hle
    · rwa [Nat.max_eq_left hle]
    · rwa [Nat.max_eq_right hle]
  obtain ⟨signature, hsignature⟩ := hfrom.exists_slice? hto (Nat.le_max_left _ _)
  obtain ⟨body, hbody⟩ :=
    source.exists_lines? (source.lineAt h.start) (max h.endLine (source.lineAt h.start))
  refine ⟨String.ofList (Text.squeeze signature), String.ofList body, ?_⟩
  have hrest : source.text.sliceFrom? h.start = some b := by
    rw [htext, ha, Text.sliceFrom?_size]
  rw [symbol?, hrest, Option.bind_eq_bind, Option.bind_some]
  dsimp only
  rw [hsize, hsignature, hline, ← ha, Option.bind_some, hbody]
  rfl

end CodeAtlas
