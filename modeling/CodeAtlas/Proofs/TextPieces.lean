import CodeAtlas.Text.Blank
import Mathlib.Data.List.DropRight
import Mathlib.Tactic.SplitIfs

/-!
# The pieces of a text

A text is cut at a separator, and trimmed at its blanks. This file collects what is known of the pieces: how they
come together again, what the pieces of two joined texts are, and how the lines of a text are counted.

* `Text.segments_eq_splitOn`: cutting at a separator is the cutting of the library;
* `Text.exists_segments_append`, `Text.segments_append_separator`: the pieces of two texts that are joined;
* `Text.intercalate_segments`, `Text.flatMap_segments`: the text of its pieces;
* `Text.segments_middle`: the pieces of a part that stands between line feeds;
* `Text.trim_isEmpty`, `Text.trim_eq_self`: the texts that are trimmed to nothing, and those that are trimmed already;
* `Text.countP_lines`, `Text.length_lines`: the lines that are not blank, and all lines;
* `Text.occursIn_iff`: a text within another.
-/

namespace CodeAtlas

/-- Two joined lists of pieces, with a separator between them. -/
theorem intercalate_append {α : Type} {separator : List α} (left : List (List α)) {right : List (List α)}
    (hleft : left ≠ []) (hright : right ≠ []) :
    separator.intercalate (left ++ right)
      = separator.intercalate left ++ separator ++ separator.intercalate right := by
  induction left with
  | nil => exact absurd rfl hleft
  | cons piece rest ih =>
    cases rest with
    | nil =>
      rw [List.singleton_append, List.intercalate_cons_of_ne_nil hright, List.intercalate_singleton]
    | cons next rest =>
      rw [List.cons_append, List.intercalate_cons_of_ne_nil (by simp), ih (by simp), List.intercalate_cons_cons]
      simp only [List.append_assoc]

namespace Text

/-! ### Pieces between separators -/

theorem segments_eq_splitOn (separator : Char) (text : Text) : segments separator text = text.splitOn separator := by
  induction text with
  | nil => rfl
  | cons c rest ih =>
    rw [segments, List.splitOn_cons_eq_if_modifyHead, ih]
    obtain ⟨first, others, hrest⟩ := List.exists_cons_of_ne_nil (List.splitOn_ne_nil separator rest)
    simp only [hrest, beq_iff_eq, List.modifyHead_cons]

theorem segments_ne_nil (separator : Char) (text : Text) : segments separator text ≠ [] := by
  rw [segments_eq_splitOn]
  exact List.splitOn_ne_nil separator text

theorem segments_cons {separator c : Char} (h : c ≠ separator) (rest : Text) :
    ∃ first others, segments separator rest = first :: others ∧
      segments separator (c :: rest) = (c :: first) :: others := by
  obtain ⟨first, others, hsegments⟩ := List.exists_cons_of_ne_nil (segments_ne_nil separator rest)
  refine ⟨first, others, hsegments, ?_⟩
  rw [segments, if_neg h, hsegments]

/-- There is one more piece than there are separators. -/
theorem length_segments (separator : Char) (text : Text) :
    (segments separator text).length = text.count separator + 1 := by
  induction text with
  | nil => rfl
  | cons c rest ih =>
    by_cases hc : c = separator
    · rw [segments, if_pos hc, List.length_cons, ih, hc, List.count_cons_self]
    · obtain ⟨first, others, hrest, hcons⟩ := segments_cons hc rest
      rw [hrest] at ih
      rw [hcons, List.count_cons_of_ne hc, ← ih, List.length_cons, List.length_cons]

/-- The pieces of two texts that are joined: the last piece of the first text and the first piece of the second
become one. -/
theorem exists_segments_append (separator : Char) (a b : Text) :
    ∃ before last first after, segments separator a = before ++ [last] ∧ segments separator b = first :: after ∧
      segments separator (a ++ b) = before ++ (last ++ first) :: after := by
  obtain ⟨first, after, hb⟩ := List.exists_cons_of_ne_nil (segments_ne_nil separator b)
  induction a with
  | nil => exact ⟨[], [], first, after, rfl, hb, hb⟩
  | cons c a ih =>
    obtain ⟨before, last, first', after', ha, hb', hab⟩ := ih
    obtain ⟨rfl, rfl⟩ := List.cons.inj (hb.symm.trans hb')
    by_cases hc : c = separator
    · refine ⟨[] :: before, last, first, after, ?_, hb, ?_⟩
      · rw [segments, if_pos hc, ha, List.cons_append]
      · rw [List.cons_append, segments, if_pos hc, hab, List.cons_append]
    · -- the character goes to the first piece, which is the last one too if there are no others
      cases before with
      | nil =>
        refine ⟨[], c :: last, first, after, ?_, hb, ?_⟩
        · rw [segments, if_neg hc, ha]
          rfl
        · rw [List.cons_append, segments, if_neg hc, hab]
          rfl
      | cons piece before =>
        refine ⟨(c :: piece) :: before, last, first, after, ?_, hb, ?_⟩
        · rw [segments, if_neg hc, ha]
          rfl
        · rw [List.cons_append, segments, if_neg hc, hab]
          rfl

theorem segments_append {separator : Char} {part : Text} (h : separator ∉ part) {rest first : Text}
    {others : List Text} (hrest : segments separator rest = first :: others) :
    segments separator (part ++ rest) = (part ++ first) :: others := by
  obtain ⟨before, last, first', after, hpart, hrest', hboth⟩ := exists_segments_append separator part rest
  rw [segments_eq_splitOn, List.splitOn_eq_singleton h] at hpart
  obtain ⟨rfl, hlast⟩ := List.append_inj' (show [] ++ [part] = before ++ [last] from hpart) rfl
  obtain ⟨rfl, rfl⟩ := List.cons.inj (hrest.symm.trans hrest')
  rw [hboth, (List.cons.inj hlast).1, List.nil_append]

theorem segments_append_separator (separator : Char) (left right : Text) :
    segments separator (left ++ separator :: right) = segments separator left ++ segments separator right := by
  simp only [segments_eq_splitOn]
  exact List.splitOn_append_cons_self left right

/-- The pieces of a text, with the separator between them, are the text. -/
theorem intercalate_segments (separator : Char) (text : Text) :
    [separator].intercalate (segments separator text) = text := by
  rw [segments_eq_splitOn]
  exact List.intercalate_splitOn separator

/-- The pieces of a text, each with the separator behind it, are the text with one more separator. -/
theorem flatMap_segments (separator : Char) (text : Text) :
    (segments separator text).flatMap (· ++ [separator]) = text ++ [separator] := by
  induction text with
  | nil => rfl
  | cons c rest ih =>
    by_cases hc : c = separator
    · rw [segments, if_pos hc, List.flatMap_cons, ih, hc]
      rfl
    · obtain ⟨first, others, hrest, hcons⟩ := segments_cons hc rest
      rw [hrest, List.flatMap_cons] at ih
      rw [hcons, List.flatMap_cons, List.cons_append, List.cons_append, ih, List.cons_append]

/-- The last piece of a text is empty exactly if nothing stands behind a line feed at its end. -/
theorem getLast?_segments (text : Text) :
    (segments '\n' text).getLast? = some [] ↔ ∀ c ∈ text.getLast?, c = '\n' := by
  rcases List.eq_nil_or_concat text with rfl | ⟨init, c, rfl⟩
  · simp [segments]
  · obtain ⟨before, last, first, after, -, hc, hboth⟩ := exists_segments_append '\n' init [c]
    rw [List.concat_eq_append, hboth, List.getLast?_concat]
    by_cases hline : c = '\n'
    · rw [segments, if_pos hline] at hc
      obtain ⟨rfl, rfl⟩ := List.cons.inj hc
      simp [segments, hline]
    · rw [segments, if_neg hline] at hc
      obtain ⟨rfl, rfl⟩ := List.cons.inj hc
      simp [hline]

/-- A part of a text with line feeds around it has pieces of the text, and the pieces before it make up what stands
before it. -/
theorem segments_middle (left middle right : Text) (hleft : ∀ c ∈ left.getLast?, c = '\n')
    (hright : ∀ c ∈ right.head?, c = '\n') :
    (segments '\n' (left ++ middle ++ right)).extract (left.count '\n') ((left ++ middle).count '\n' + 1)
        = segments '\n' middle ∧
      ((segments '\n' (left ++ middle ++ right)).take (left.count '\n')).flatMap (· ++ ['\n']) = left := by
  -- the pieces fall into three lists, of which the outer ones may be empty
  obtain ⟨before, hbefore, hlength, hflat⟩ : ∃ before : List Text,
      (∀ rest, segments '\n' (left ++ rest) = before ++ segments '\n' rest) ∧ before.length = left.count '\n' ∧
        before.flatMap (· ++ ['\n']) = left := by
    rcases List.eq_nil_or_concat left with hnil | ⟨line, c, hline⟩
    · exact ⟨[], fun rest => by rw [hnil]; rfl, by rw [hnil]; rfl, by rw [hnil]; rfl⟩
    · rw [List.concat_eq_append] at hline
      obtain rfl : c = '\n' := hleft c (by rw [hline]; simp)
      refine ⟨segments '\n' line, fun rest => ?_, ?_, ?_⟩
      · rw [hline, List.append_assoc, List.singleton_append, segments_append_separator]
      · rw [hline, length_segments, List.count_append, List.count_singleton_self]
      · rw [hline, flatMap_segments]
  obtain ⟨after, hafter⟩ : ∃ after, segments '\n' (middle ++ right) = segments '\n' middle ++ after := by
    cases right with
    | nil => exact ⟨[], by rw [List.append_nil, List.append_nil]⟩
    | cons c right =>
      obtain rfl : c = '\n' := hright c rfl
      exact ⟨segments '\n' right, segments_append_separator '\n' middle right⟩
  have hmiddle : (left ++ middle).count '\n' + 1 - left.count '\n' = (segments '\n' middle).length := by
    rw [length_segments, List.count_append]
    omega
  rw [List.append_assoc, hbefore, hafter, List.extract_eq_take_drop, hmiddle, ← hlength]
  exact ⟨by rw [List.drop_left, List.take_left], by rw [List.take_left, hflat]⟩

/-! ### Blanks at the ends of a text -/

theorem mem_of_mem_trim {c : Char} {text : Text} (h : c ∈ text.trim) : c ∈ text := by
  have hstart : trim text <+: text.dropWhile isBlank := List.rdropWhile_prefix isBlank _
  exact (List.dropWhile_sublist _).subset (hstart.subset h)

theorem trim_ne_nil {text : Text} {c : Char} (hmem : c ∈ text) (hc : isBlank c = false) : trim text ≠ [] := by
  have hdrop : ∀ {l : Text}, c ∈ l → c ∈ l.dropWhile isBlank := by
    intro l hl
    rw [← List.takeWhile_append_dropWhile (p := isBlank) (l := l)] at hl
    rcases List.mem_append.mp hl with hl | hl
    · have hblank := List.all_eq_true.mp List.all_takeWhile c hl
      rw [hc] at hblank
      cases hblank
    · exact hl
  apply List.ne_nil_of_mem (a := c)
  rw [trim, trimEndWhile, List.mem_reverse]
  exact hdrop (List.mem_reverse.mpr (hdrop hmem))

/-- A text is trimmed to nothing exactly if it is blank. -/
theorem trim_isEmpty (text : Text) : (trim text).isEmpty = text.all isBlank := by
  rw [Bool.eq_iff_iff, List.isEmpty_iff, List.all_eq_true]
  constructor
  · intro h c hc
    by_contra hblank
    exact trim_ne_nil hc (by simpa using hblank) h
  · intro h
    have hdrop : text.dropWhile isBlank = [] := List.dropWhile_eq_nil_iff.mpr h
    rw [trim, hdrop]
    rfl

theorem isBlank_head?_trim (text : Text) : ∀ c ∈ (trim text).head?, isBlank c = false := by
  intro c hc
  have hstart : trim text <+: text.dropWhile isBlank := List.rdropWhile_prefix isBlank _
  have hhead : (text.dropWhile isBlank).head? = some c := by
    obtain ⟨rest, hrest⟩ := List.head?_eq_some_iff.mp hc
    obtain ⟨more, hmore⟩ := hstart
    rw [← hmore, hrest]
    rfl
  have hnot := List.head?_dropWhile_not isBlank text
  rw [hhead] at hnot
  simpa using hnot

theorem isBlank_getLast?_trim (text : Text) : ∀ c ∈ (trim text).getLast?, isBlank c = false := by
  intro c hc
  have hne : trim text ≠ [] := by
    intro hnil
    rw [hnil] at hc
    cases hc
  have hlast := List.rdropWhile_last_not isBlank (text.dropWhile isBlank) hne
  rw [List.getLast?_eq_some_getLast hne] at hc
  cases hc
  exact Bool.eq_false_iff.mpr hlast

/-- A text without blanks at its ends is trimmed already. -/
theorem trim_eq_self {text : Text} (hhead : ∀ c ∈ text.head?, isBlank c = false)
    (hlast : ∀ c ∈ text.getLast?, isBlank c = false) : trim text = text := by
  have hstart : text.dropWhile isBlank = text := by
    cases text with
    | nil => rfl
    | cons c rest => rw [List.dropWhile_cons_of_neg (by rw [hhead c rfl]; decide)]
  rw [trim, hstart]
  refine List.rdropWhile_eq_self_iff.mpr fun hne => ?_
  rw [hlast _ (by rw [List.getLast?_eq_some_getLast hne]; rfl)]
  decide

/-- Trimming twice is trimming once. -/
theorem trim_trim (text : Text) : trim (trim text) = trim text :=
  trim_eq_self (isBlank_head?_trim text) (isBlank_getLast?_trim text)

/-! ### Lines -/

/-- The number of lines that hold a character other than a blank. -/
def writtenLines (text : Text) : Nat :=
  (segments '\n' text).countP fun line => line.any fun c => !isBlank c

theorem writtenLines_le {inner outer : Text} (h : inner <:+: outer) : inner.writtenLines ≤ outer.writtenLines := by
  obtain ⟨left, right, rfl⟩ := h
  have hright : writtenLines inner ≤ writtenLines (inner ++ right) := by
    obtain ⟨before, last, first, after, hinner, -, hboth⟩ := exists_segments_append '\n' inner right
    rw [writtenLines, writtenLines, hinner, hboth, List.countP_append, List.countP_append, List.countP_singleton,
      List.countP_cons, List.any_append]
    grind
  have hleft : writtenLines (inner ++ right) ≤ writtenLines (left ++ (inner ++ right)) := by
    obtain ⟨before, last, first, after, -, hrest, hboth⟩ := exists_segments_append '\n' left (inner ++ right)
    rw [writtenLines, writtenLines, hrest, hboth, List.countP_append, List.countP_cons, List.countP_cons,
      List.any_append]
    grind
  rw [List.append_assoc]
  exact hright.trans hleft

/-- The lines of a text in terms of its pieces, of which the last one is what no line feed ends. -/
theorem exists_lines (text : Text) :
    ∃ ended rest, segments '\n' text = ended ++ [rest] ∧
      lines text = ended.map dropReturn ++ if rest = [] then [] else [rest] := by
  rcases List.eq_nil_or_concat (segments '\n' text) with hnil | ⟨ended, rest, hpieces⟩
  · exact absurd hnil (segments_ne_nil '\n' text)
  · rw [List.concat_eq_append] at hpieces
    refine ⟨ended, rest, hpieces, ?_⟩
    rw [lines, hpieces, List.dropLast_concat, List.getLast?_concat]
    cases rest with
    | nil => rfl
    | cons c rest => rfl

/-- A line is blank with the carriage return at its end exactly if it is blank without it. -/
theorem all_isBlank_dropReturn (line : Text) : (dropReturn line).all isBlank = line.all isBlank := by
  rw [dropReturn]
  split_ifs with hlast
  · obtain ⟨init, rfl⟩ := List.getLast?_eq_some_iff.mp (beq_iff_eq.mp hlast)
    rw [List.dropLast_concat, List.all_append]
    simp [show isBlank '\r' = true from by decide]
  · rfl

/-- The lines that are not blank are those among the pieces between line feeds. -/
theorem countP_lines (text : Text) :
    (lines text).countP (fun line => !(trim line).isEmpty) = text.writtenLines := by
  obtain ⟨ended, rest, hpieces, hlines⟩ := exists_lines text
  have hwritten : ∀ line : Text, (!(trim line).isEmpty) = line.any fun c => !isBlank c := by
    intro line
    rw [trim_isEmpty, List.not_all_eq_any_not]
  have hended : (ended.map dropReturn).countP (fun line => !(trim line).isEmpty)
      = ended.countP fun line => line.any fun c => !isBlank c := by
    rw [List.countP_map]
    refine List.countP_congr fun line _ => ?_
    rw [← hwritten, trim_isEmpty, Function.comp_apply, trim_isEmpty, all_isBlank_dropReturn]
  have hrest : (if rest = [] then [] else [rest]).countP (fun line => !(trim line).isEmpty)
      = [rest].countP fun line => line.any fun c => !isBlank c := by
    split_ifs with hnil
    · rw [hnil]
      rfl
    · rw [List.countP_singleton, List.countP_singleton, hwritten]
  rw [writtenLines, hlines, hpieces, List.countP_append, List.countP_append, hended, hrest]

/-- The number of lines: what stands behind the last line feed is a line unless it is empty. -/
theorem length_lines (text : Text) :
    (lines text).length = text.count '\n' + if text.getLast?.all (· == '\n') then 0 else 1 := by
  obtain ⟨ended, rest, hpieces, hlines⟩ := exists_lines text
  have hlength : ended.length = text.count '\n' := by
    have hcount := length_segments '\n' text
    rw [hpieces, List.length_append, List.length_singleton] at hcount
    omega
  have hrest : rest = [] ↔ text.getLast?.all (· == '\n') = true := by
    have hlast := getLast?_segments text
    rw [hpieces, List.getLast?_concat, Option.some.injEq] at hlast
    simp only [hlast, Option.all_eq_true, beq_iff_eq, Option.mem_def]
  rw [hlines, List.length_append, List.length_map, hlength]
  simp only [← hrest]
  split_ifs
  · rfl
  · rfl

theorem length_lines_le {inner outer : Text} (h : inner <:+: outer) :
    (lines inner).length ≤ (lines outer).length := by
  obtain ⟨left, right, rfl⟩ := h
  rw [length_lines, length_lines, List.count_append, List.count_append]
  simp only [Option.all_eq_true, beq_iff_eq]
  split_ifs with hinner houter houter
  · omega
  · omega
  · -- the inner text breaks off within a line, which the outer one ends
    have hfeed : 0 < right.count '\n' := by
      rcases List.eq_nil_or_concat right with rfl | ⟨init, c, rfl⟩
      · refine absurd ?_ hinner
        intro c hc
        refine houter c ?_
        rw [List.append_nil, List.getLast?_append, Option.mem_def.mp hc]
        rfl
      · rw [List.concat_eq_append] at houter ⊢
        have hc : c = '\n' := houter c (by rw [← List.append_assoc, List.getLast?_concat])
        rw [hc]
        simp
    omega
  · omega

/-! ### Texts within texts -/

/-- A text occurs in another exactly if it is a stretch of it. -/
theorem occursIn_iff {part text : Text} : occursIn part text = true ↔ part <:+: text := by
  induction text with
  | nil => simp [occursIn]
  | cons c rest ih => rw [occursIn, Bool.or_eq_true, ih, List.isPrefixOf_iff_prefix, List.infix_cons_iff]

end Text

end CodeAtlas
