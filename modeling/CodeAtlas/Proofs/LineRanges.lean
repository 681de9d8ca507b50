import CodeAtlas.Proofs.EdgeMentions

/-!
# Ranges of lines

Lines are addressed through the offsets at which they start: the line of an offset is looked up among them, and a
range of lines is cut out between two of them. This file compares that with the text itself, cut at its line feeds.

* `Source.lineAt_eq_count`: the line of an offset, also of one within a character;
* `Source.exists_rangeParts`: what stands before a range of lines, in it and behind it;
* `line_ranges_match_text`: lines and offsets in terms of the pieces of the text.
-/

namespace CodeAtlas

/-! ### Lines by their numbers -/

/-- A number, moved to the nearest one from 1 to `last`. -/
def clampLine (last number : Nat) : Nat :=
  max 1 (min number last)

theorem clampLine_eq {last : Nat} (h : 1 ≤ last) (number : Nat) :
    clampLine last number = min (max number 1) last := by
  rw [clampLine]
  omega

theorem clampLine_eq_self {last number : Nat} (hpos : 1 ≤ number) (hle : number ≤ last) :
    clampLine last number = number := by
  rw [clampLine]
  omega

namespace Source

variable (source : Source)

/-- The first line of a range that starts with a number. -/
def firstLine (start : Nat) : Nat :=
  clampLine (max source.lineCount 1) start

/-- The last line of a range between two numbers. -/
def lastLine (start stop : Nat) : Nat :=
  max (source.firstLine start) (clampLine (max source.lineCount 1) stop)

/-- The text from one line to another, made up of the pieces between line feeds. -/
def joinedLines (first last : Nat) : Text :=
  ['\n'].intercalate ((Text.segments '\n' source.text).extract (first - 1) last)

/-- The offset behind the lines before a line, with their line feeds. -/
def lineOffset (line : Nat) : Nat :=
  (Text.bytes (((Text.segments '\n' source.text).take (line - 1)).flatMap (· ++ ['\n']))).length

/-- What a sequence of bytes has in the place of some lines. -/
def inPlaceOf (first last : Nat) (bytes : List UInt8) : List UInt8 :=
  bytes.extract (source.lineOffset first) (source.lineOffset first + (source.joinedLines first last).bytes.length)

/-- The line of an offset is one more than the line feeds among the bytes before it. -/
theorem lineAt_eq_count (offset : Nat) :
    source.lineAt offset = 1 + (source.text.bytes.take offset).count '\n'.toUInt8 := by
  obtain ⟨before, after, htext, hle, hlast, hcount⟩ := Text.exists_wholeCharacters source.text offset
  simp only [← Text.size_eq_length_bytes] at hle hlast
  -- lines start between characters, so none starts within the one that the offset may cut
  have hsame : source.lineAt offset = source.lineAt before.size := by
    refine List.countP_congr fun start hstart => ?_
    obtain ⟨u, v, hsplit, rfl⟩ := source.isBoundary_of_mem_lineStarts hstart
    simp only [decide_eq_true_eq]
    exact ⟨hlast u v hsplit, fun h => h.trans hle⟩
  rw [hsame, source.lineAt_size htext, hcount '\n' (by decide), Nat.add_comm]

theorem firstLine_bounds (start : Nat) :
    1 ≤ source.firstLine start ∧ source.firstLine start ≤ max source.lineCount 1 := by
  rw [firstLine, clampLine]
  omega

theorem lastLine_bounds (start stop : Nat) :
    source.firstLine start ≤ source.lastLine start stop ∧
      source.lastLine start stop ≤ max source.lineCount 1 := by
  have hfirst := source.firstLine_bounds start
  rw [lastLine, clampLine]
  omega

theorem firstLine_eq_self {first : Nat} (hpos : 1 ≤ first) (hle : first ≤ max source.lineCount 1) :
    source.firstLine first = first :=
  clampLine_eq_self hpos hle

theorem lastLine_eq_self {first last : Nat} (hpos : 1 ≤ first) (hle : first ≤ last)
    (hlast : last ≤ max source.lineCount 1) : source.lastLine first last = last := by
  rw [lastLine, source.firstLine_eq_self hpos (hle.trans hlast), clampLine_eq_self (hpos.trans hle) hlast,
    Nat.max_eq_right hle]

/-- A range is moved to its lines before its bytes are looked up. -/
theorem lineSpan?_eq_clamped (start stop : Nat) :
    source.lineSpan? start stop = source.lineSpan? (source.firstLine start) (source.lastLine start stop) := by
  have hcount : 1 ≤ max source.lineCount 1 := Nat.le_max_right _ _
  have hfirst : ∀ number, min (max number 1) (max source.lineCount 1) = source.firstLine number :=
    fun number => (clampLine_eq hcount number).symm
  have hlast : ∀ start stop, max (source.firstLine stop) (source.firstLine start) = source.lastLine start stop :=
    fun start stop => Nat.max_comm _ _
  obtain ⟨hpos, hle⟩ := source.firstLine_bounds start
  obtain ⟨hle', hlast'⟩ := source.lastLine_bounds start stop
  have hagain : source.lastLine start (source.lastLine start stop) = source.lastLine start stop := by
    rw [lastLine, clampLine_eq_self (hpos.trans hle') hlast', Nat.max_eq_right hle']
  simp only [lineSpan?, hfirst, hlast, source.firstLine_eq_self hpos hle, hagain]

theorem text_eq_nil_of_lineCount_eq_zero (h : source.lineCount = 0) : source.text = [] := by
  have hlength := source.length_lineStarts
  rw [source.lineCount_eq] at h
  split_ifs at h with hlast
  · have hnone : '\n' ∉ source.text := List.count_eq_zero.mp (by omega)
    rcases source.mem_lineStarts.mp hlast with hsize | ⟨before, after, htext, -⟩
    · exact Text.eq_nil_of_size_eq_zero hsize
    · exact absurd (by rw [htext]; simp) hnone
  · omega

/-- What stands before a range of lines, in it and behind it. A text without lines counts as one empty line. -/
theorem exists_rangeParts (start stop : Nat) :
    ∃ left middle right, source.text = left ++ middle ++ right ∧
      source.lineSpan? start stop = some ⟨Text.size left, Text.size (left ++ middle)⟩ ∧
      left.count '\n' + 1 = source.firstLine start ∧ (left ++ middle).count '\n' + 1 = source.lastLine start stop ∧
      (∀ c ∈ left.getLast?, c = '\n') ∧ ∀ c ∈ right.head?, c = '\n' := by
  have hfirstBounds := source.firstLine_bounds start
  have hlastBounds := source.lastLine_bounds start stop
  by_cases hcount : source.lineCount = 0
  · have htext := source.text_eq_nil_of_lineCount_eq_zero hcount
    have hfirst : source.firstLine start = 1 := by omega
    have hlast : source.lastLine start stop = 1 := by omega
    refine ⟨[], [], [], htext, ?_, by rw [hfirst]; rfl, by rw [hlast]; rfl, by simp, by simp⟩
    rw [lineSpan?_eq_clamped, hfirst, hlast]
    simp only [lineSpan?, hcount, source.lineStarts_eq, htext, lineStartsAfter]
    rfl
  · rw [lineSpan?_eq_clamped]
    exact exists_lineParts hfirstBounds.1 hlastBounds.1 (by omega)

theorem lines?_eq {source : Source} {start stop : Nat} {left middle right : Text}
    (htext : source.text = left ++ middle ++ right)
    (hspan : source.lineSpan? start stop = some ⟨Text.size left, Text.size (left ++ middle)⟩) :
    source.lines? start stop = some middle := by
  rw [lines?, hspan]
  show source.text.slice? (Text.size left) (Text.size (left ++ middle)) = some middle
  rw [htext, Text.slice?_size]

/-- A range of lines is cut out of the text and of the code view without fail. It is the text of its pieces, and its
code is what the view has at the same bytes. -/
structure RangeMatches (start stop : Nat) : Prop where
  lines_cut : source.lines? start stop = some (source.lines start stop)
  lines_eq : source.lines start stop
    = source.joinedLines (source.firstLine start) (source.lastLine start stop)
  lines_bytes : (source.lines start stop).bytes
    = source.inPlaceOf (source.firstLine start) (source.lastLine start stop) source.text.bytes
  codeLines_cut : source.codeLines? start stop = some (source.codeLines start stop)
  codeLines_bytes : (source.codeLines start stop).bytes
    = source.inPlaceOf (source.firstLine start) (source.lastLine start stop) source.code.bytes

theorem rangeMatches (start stop : Nat) : source.RangeMatches start stop := by
  obtain ⟨left, middle, right, htext, hspan, hfirst, hlast, hleft, hright⟩ := source.exists_rangeParts start stop
  obtain ⟨hpieces, hbefore⟩ := Text.segments_middle left middle right hleft hright
  rw [← htext] at hpieces hbefore
  have hjoined : source.joinedLines (source.firstLine start) (source.lastLine start stop) = middle := by
    rw [joinedLines, ← hfirst, ← hlast, Nat.add_sub_cancel, hpieces, Text.intercalate_segments]
  have hoffset : source.lineOffset (source.firstLine start) = left.bytes.length := by
    rw [lineOffset, ← hfirst, Nat.add_sub_cancel, hbefore]
  -- the parts of the view lie under the parts of the text
  have hmasks := source.code_masks
  rw [htext] at hmasks
  obtain ⟨v, z, hcode, hv, -⟩ := hmasks.split
  obtain ⟨x, y, rfl, hx, hy⟩ := hv.split
  have hspan' : source.lineSpan? start stop = some ⟨Text.size x, Text.size (x ++ y)⟩ := by
    rw [hspan, hx.size_eq, hv.size_eq]
  have hlines? := lines?_eq htext hspan
  have hlines : source.lines start stop = middle := by rw [lines, hlines?, Option.getD_some]
  have hcodeLines? := codeLines?_eq hcode hspan'
  have hcodeLines : source.codeLines start stop = y := by rw [codeLines, hcodeLines?, Option.getD_some]
  constructor
  · rw [hlines?, hlines]
  · rw [hlines, hjoined]
  · rw [hlines, inPlaceOf, hjoined, hoffset, htext, Text.extract_bytes_middle]
  · rw [hcodeLines?, hcodeLines]
  · rw [hcodeLines, inPlaceOf, hjoined, hoffset, hcode, ← hx.length_bytes, ← hy.length_bytes,
      Text.extract_bytes_middle]

theorem lines_eq_joinedLines {first last : Nat} (hfirst : 1 ≤ first) (hle : first ≤ last)
    (hlast : last ≤ source.lineCount) : source.lines first last = source.joinedLines first last := by
  rw [(source.rangeMatches first last).lines_eq, source.firstLine_eq_self hfirst (by omega),
    source.lastLine_eq_self hfirst hle (by omega)]

/-- Two ranges of lines, one behind the other. -/
theorem joinedLines_append {first middle last : Nat} (hfirst : first - 1 < middle) (hle : middle < last)
    (hlast : last ≤ source.lineCount) :
    source.joinedLines first middle ++ '\n' :: source.joinedLines (middle + 1) last
      = source.joinedLines first last := by
  have hlength : source.lineCount ≤ (Text.segments '\n' source.text).length := by
    rw [Text.length_segments, ← source.length_lineStarts]
    exact source.lineCount_le
  have hpieces : (Text.segments '\n' source.text).extract (first - 1) last
      = (Text.segments '\n' source.text).extract (first - 1) middle
        ++ (Text.segments '\n' source.text).extract middle last := by
    rw [List.extract_eq_take_drop, List.extract_eq_take_drop, List.extract_eq_take_drop,
      show last - (first - 1) = middle - (first - 1) + (last - middle) from by omega, List.take_add, List.drop_drop,
      show first - 1 + (middle - (first - 1)) = middle from by omega]
  have hne : ∀ {i j : Nat}, i < j → j ≤ source.lineCount →
      (Text.segments '\n' source.text).extract i j ≠ [] := by
    intro i j hij hj
    apply List.ne_nil_of_length_pos
    rw [List.extract_eq_take_drop, List.length_take, List.length_drop]
    omega
  rw [joinedLines, joinedLines, joinedLines, hpieces, Nat.add_sub_cancel,
    intercalate_append _ (hne hfirst (by omega)) (hne hle hlast), List.append_assoc, List.singleton_append]

end Source

/-- **Lines match the text.** The line of every offset is one more than the line feeds before it. Every range of
lines, moved to the lines that there are, is cut out of the text without fail: it is made up of the pieces of the text
between line feeds, from the first line of the range to its last. The code of the range is what the code view has at
the same bytes. So ranges that follow one another, with a line feed between them, are one range. -/
theorem line_ranges_match_text (source : Source) :
    (∀ offset, source.lineAt offset = 1 + (source.text.bytes.take offset).count '\n'.toUInt8) ∧
    (∀ start stop, source.RangeMatches start stop) ∧
    ∀ first middle last, 1 ≤ first → first ≤ middle → middle < last → last ≤ source.lineCount →
      source.lines first middle ++ '\n' :: source.lines (middle + 1) last = source.lines first last := by
  refine ⟨source.lineAt_eq_count, source.rangeMatches, ?_⟩
  intro first middle last hfirst hmiddle hlt hlast
  rw [source.lines_eq_joinedLines hfirst hmiddle (by omega), source.lines_eq_joinedLines (by omega) hlt hlast,
    source.lines_eq_joinedLines hfirst (by omega) hlast, source.joinedLines_append (by omega) hlt hlast]

/-- Three lines, of which the second is blank and the third has a comment, behind a character of two bytes. -/
def commentedLines : Source :=
  Source.ofText "a.c" .c "é;\n\nf(); //\n".toList

/-- The first two lines and the third one make up the whole; an offset within a character has its line, and numbers
out of range are moved. -/
theorem commentedLines_match_text :
    commentedLines.lineAt 1 = 1 ∧ commentedLines.lineAt 4 = 2 ∧
    commentedLines.lines 0 99 = "é;\n\nf(); //".toList ∧ commentedLines.codeLines 3 2 = "f();   ".toList ∧
    (commentedLines.codeLines 3 2).bytes = (commentedLines.code.bytes.drop 5).take 7 ∧
    commentedLines.lines 1 2 ++ '\n' :: commentedLines.lines 3 3 = commentedLines.lines 1 3 := by
  obtain ⟨hline, hrange, hjoin⟩ := line_ranges_match_text commentedLines
  exact ⟨(hline 1).trans (by decide), (hline 4).trans (by decide), (hrange 0 99).lines_eq.trans (by decide),
    by decide, (hrange 3 2).codeLines_bytes.trans (by decide),
    hjoin 1 2 3 (by decide) (by decide) (by decide) (by decide)⟩

end CodeAtlas
