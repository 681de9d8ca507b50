import CodeAtlas.Proofs.IndentedBlocks
import CodeAtlas.Proofs.LineRanges
import Mathlib.Order.Bounds.Basic

/-!
# Indented blocks are maximal

The end of an indented block is looked for from line to line: lines without code are passed over, and the first line
that is not deep enough ends the search. This file describes the line found without the search. The text is cut at
its line feeds, and the code of a line is what the code view has at the bytes of that piece.

* `Source.IsCodeOf`: the code of a line;
* `Source.HoldsCode`, `Source.IndentedPast`: a line with code, and a line that is indented deeper than a header;
* `Source.IsBlockEnd`: the lines with which a block below a header may end;
* `Source.IsBlockEnd.le_indentedBlockEnd`: none of them lies behind the line found;
* `indented_blocks_maximal`: the line found is the greatest of them.
-/

namespace CodeAtlas

namespace Source

variable {source : Source} {headerEnd indent line : Nat}

/-! ### The code of a line -/

/-- A text is the code of a line if the view has its bytes in the place of the line. -/
def IsCodeOf (source : Source) (line : Nat) (code : Text) : Prop :=
  code.bytes = source.inPlaceOf line line source.code.bytes

/-- The code of the line has a character that is not white space. -/
def HoldsCode (source : Source) (line : Nat) : Prop :=
  ∃ code, source.IsCodeOf line code ∧ ∃ c ∈ code, Text.isBlank c = false

/-- The code of the line is indented deeper. -/
def IndentedPast (source : Source) (indent line : Nat) : Prop :=
  ∃ code, source.IsCodeOf line code ∧ indent < indentWidth code

theorem isCodeOf_codeLines (hpos : 1 ≤ line) (hle : line ≤ source.lineCount) :
    source.IsCodeOf line (source.codeLines line line) := by
  have hrange := (source.rangeMatches line line).codeLines_bytes
  rw [source.firstLine_eq_self hpos (by omega), source.lastLine_eq_self hpos (Nat.le_refl line) (by omega)] at hrange
  exact hrange

/-- A line has one code. -/
theorem IsCodeOf.unique {code code' : Text} (h : source.IsCodeOf line code) (h' : source.IsCodeOf line code') :
    code = code' :=
  Text.bytes_injective (h.trans h'.symm)

theorem holdsCode_iff (hpos : 1 ≤ line) (hle : line ≤ source.lineCount) :
    source.HoldsCode line ↔ ¬ source.BlankLine line := by
  have hcode := isCodeOf_codeLines hpos hle
  rw [BlankLine, Text.trim_isEmpty, Bool.not_eq_true, List.all_eq_false]
  constructor
  · intro h
    obtain ⟨code, hcode', c, hc, hblank⟩ := h
    rw [hcode'.unique hcode] at hc
    exact ⟨c, hc, by rw [hblank]; decide⟩
  · intro h
    obtain ⟨c, hc, hblank⟩ := h
    exact ⟨_, hcode, c, hc, by simpa using hblank⟩

theorem indentedPast_iff (hpos : 1 ≤ line) (hle : line ≤ source.lineCount) :
    source.IndentedPast indent line ↔ indent < indentWidth (source.codeLines line line) := by
  have hcode := isCodeOf_codeLines hpos hle
  constructor
  · intro h
    obtain ⟨code, hcode', hdeep⟩ := h
    rwa [hcode'.unique hcode] at hdeep
  · intro h
    exact ⟨_, hcode, h⟩

/-- A line on which a block goes on is deep enough if it holds code. -/
theorem continues_iff (hpos : 1 ≤ line) (hle : line ≤ source.lineCount) :
    source.Continues indent line ↔ (source.HoldsCode line → source.IndentedPast indent line) := by
  rw [holdsCode_iff hpos hle, indentedPast_iff hpos hle, Continues, imp_iff_not_or, not_not]

/-! ### The lines with which a block may end -/

/-- A block below the header may end with the line: the line is that of the header or holds code, and all code
between the two is indented deeper than the header. -/
structure IsBlockEnd (source : Source) (headerEnd indent last : Nat) : Prop where
  header_le : headerEnd ≤ last
  le_lineCount : last ≤ source.lineCount
  solid : last = headerEnd ∨ source.HoldsCode last
  deeper : ∀ line, headerEnd < line → line ≤ last → source.HoldsCode line → source.IndentedPast indent line

/-- The block may end with the line found. -/
theorem isBlockEnd_indentedBlockEnd (hcount : headerEnd ≤ source.lineCount) :
    source.IsBlockEnd headerEnd indent (source.indentedBlockEnd headerEnd indent) := by
  obtain ⟨hsolid, hcontinues, -⟩ := source.endsBlock_indentedBlockEnd headerEnd indent
  have hheader := source.le_indentedBlockEnd headerEnd indent
  have hlast : source.indentedBlockEnd headerEnd indent ≤ source.lineCount := by
    rcases hsolid with heq | ⟨-, hlt, -⟩
    · omega
    · omega
  refine ⟨hheader, hlast, ?_, ?_⟩
  · rcases hsolid with heq | ⟨hlt, -, hwritten⟩
    · exact .inl heq
    · exact .inr ((holdsCode_iff (by omega) hlast).mpr hwritten)
  · intro line hlt hle
    exact (continues_iff (by omega) (by omega)).mp (hcontinues line hlt hle)

/-- A block does not end behind the line found. -/
theorem IsBlockEnd.le_indentedBlockEnd {last : Nat} (h : source.IsBlockEnd headerEnd indent last) :
    last ≤ source.indentedBlockEnd headerEnd indent := by
  have hheader := source.le_indentedBlockEnd headerEnd indent
  have hcount := h.le_lineCount
  by_contra hlt
  -- the block goes on up to `last`, so the search has passed over it as blank
  have hblank : source.BlankLine last := by
    refine (source.endsBlock_indentedBlockEnd headerEnd indent).maximal last (by omega) (by omega) (by omega) ?_
    intro between hbetween hle
    exact (continues_iff (by omega) (by omega)).mpr (h.deeper between hbetween hle)
  rcases h.solid with heq | hholds
  · omega
  · exact (holdsCode_iff (by omega) hcount).mp hholds hblank

/-- The next line with code behind the line found is not deep enough: otherwise the block could end with it. -/
theorem not_indentedPast_of_next {next : Nat} (hcount : headerEnd ≤ source.lineCount)
    (hlt : source.indentedBlockEnd headerEnd indent < next) (hle : next ≤ source.lineCount)
    (hholds : source.HoldsCode next)
    (hbetween : ∀ between, source.indentedBlockEnd headerEnd indent < between → between < next →
      ¬ source.HoldsCode between) : ¬ source.IndentedPast indent next := by
  intro hdeep
  have hfound : source.IsBlockEnd headerEnd indent _ := isBlockEnd_indentedBlockEnd hcount
  have hnext : source.IsBlockEnd headerEnd indent next := by
    refine ⟨hfound.header_le.trans hlt.le, hle, .inr hholds, ?_⟩
    intro line hline hline' hholds'
    rcases Nat.lt_or_ge (source.indentedBlockEnd headerEnd indent) line with hbehind | hwithin
    · rcases Nat.lt_or_eq_of_le hline' with hbefore | rfl
      · exact absurd hholds' (hbetween line hbehind hbefore)
      · exact hdeep
    · exact hfound.deeper line hline hwithin hholds'
  exact absurd hnext.le_indentedBlockEnd (Nat.not_le.mpr hlt)

end Source

/-- **Indented blocks are maximal.** For every source, every line on which a header may end and every indentation, the
end of the block below is the greatest line with which it may end: the line of the header or a line with code, where
all code below the header up to it is indented deeper. So the next line with code, if there is one, is not. -/
theorem indented_blocks_maximal (source : Source) (headerEnd indent : Nat)
    (hcount : headerEnd ≤ source.lineCount) :
    IsGreatest {last | source.IsBlockEnd headerEnd indent last} (source.indentedBlockEnd headerEnd indent) ∧
      ∀ next, source.indentedBlockEnd headerEnd indent < next → next ≤ source.lineCount → source.HoldsCode next →
        (∀ between, source.indentedBlockEnd headerEnd indent < between → between < next →
          ¬ source.HoldsCode between) →
        ∃ code, source.IsCodeOf next code ∧ indentWidth code ≤ indent := by
  refine ⟨⟨Source.isBlockEnd_indentedBlockEnd hcount, fun last h => h.le_indentedBlockEnd⟩, ?_⟩
  intro next hlt hle hholds hbetween
  have hshallow := Source.not_indentedPast_of_next hcount hlt hle hholds hbetween
  have hpos : 1 ≤ next := by omega
  rw [Source.indentedPast_iff hpos hle, Nat.not_lt] at hshallow
  exact ⟨_, Source.isCodeOf_codeLines hpos hle, hshallow⟩

/-- A header with two lines of code below it. Between them stand an empty line and a comment without indentation, the
second is indented by a tab, and the string behind it is not part of the block. -/
def interruptedBlock : Source :=
  Source.ofText "a.py" .python "def f():\n  g()\n\n# h\n\tk()\n \"s\"\n\nm()\n".toList

/-- The block ends with the tab, four lines below its header. The next line with code is three lines further down. -/
theorem interruptedBlock_maximal :
    1 ≤ interruptedBlock.lineCount ∧ IsGreatest {last | interruptedBlock.IsBlockEnd 1 0 last} 5 ∧
      interruptedBlock.HoldsCode 8 ∧ (∃ code, interruptedBlock.IsCodeOf 8 code ∧ indentWidth code ≤ 0) := by
  have hend : interruptedBlock.indentedBlockEnd 1 0 = 5 := by decide
  have hlines : interruptedBlock.lineCount = 8 := by decide
  have hcode : ∀ line, 1 ≤ line → line ≤ 8 →
      (interruptedBlock.HoldsCode line ↔ ¬ interruptedBlock.BlankLine line) := by
    intro line hpos hle
    exact Source.holdsCode_iff hpos (by rw [hlines]; exact hle)
  have hholds : interruptedBlock.HoldsCode 8 := (hcode 8 (by decide) (by decide)).mpr (by rw [Source.BlankLine]; decide)
  obtain ⟨hgreatest, hnext⟩ := indented_blocks_maximal interruptedBlock 1 0 (by rw [hlines]; decide)
  rw [hend] at hgreatest hnext
  refine ⟨by rw [hlines]; decide, hgreatest, hholds, hnext 8 (by decide) (by rw [hlines]) hholds ?_⟩
  intro between hlt hle
  rw [hcode between (by omega) (by omega), not_not, Source.BlankLine]
  obtain rfl | rfl : between = 6 ∨ between = 7 := by omega
  · decide
  · decide

end CodeAtlas
