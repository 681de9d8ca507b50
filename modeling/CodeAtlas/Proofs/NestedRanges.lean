import CodeAtlas.Proofs.ExtractedSymbols
import CodeAtlas.Proofs.IndentedBlocks

/-!
# When line ranges nest

The lines of two symbols of a file should lie apart or within one another. Blocks do nest, in braces as well as
by indentation. Headers need not: a definition can start on a line of another header, and a block can end on a
line of a header that it holds. This file shows that ranges cross there and nowhere else.

* `Header.EndsBraced.nested`: definitions in braces nest;
* `Header.EndsIndented.nested`: indented definitions nest;
* `ranges_nest_iff`: two ranges nest exactly if neither definition is torn at a header.
-/

namespace CodeAtlas

/-- The lines of two symbols lie apart, or those of one are among those of the other. -/
def Symbol.Nests (s t : Symbol) : Prop :=
  s.endLine < t.startLine ∨ t.endLine < s.startLine ∨
    (s.startLine ≤ t.startLine ∧ t.endLine ≤ s.endLine) ∨ (t.startLine ≤ s.startLine ∧ s.endLine ≤ t.endLine)

instance (s t : Symbol) : Decidable (s.Nests t) :=
  inferInstanceAs (Decidable (_ ∨ _))

/-- The definition of `h` is torn at a header: that of `k` starts later, on one of its lines, and ends after it, and
either `k` starts on a line of the header `h`, or the definition of `h` ends on a line of the header `k`. -/
structure Header.TornBy (source : Source) (h k : Header) : Prop where
  starts : source.lineAt h.start < source.lineAt k.start
  within : source.lineAt k.start ≤ h.endLine
  ends : h.endLine < k.endLine
  atHeader : source.lineAt k.start ≤ source.lineAt h.stop ∨ h.endLine ≤ source.lineAt k.stop

/-! ### Lines of offsets -/

namespace Source

variable {source : Source}

theorem lt_of_lineAt_lt {o o' : Nat} (h : source.lineAt o < source.lineAt o') : o < o' := by
  by_contra hle
  have hmono := source.lineAt_mono (Nat.le_of_not_lt hle)
  omega

theorem SolidBefore.lineAt_le_lineCount {offset : Nat} (h : source.SolidBefore offset) :
    source.lineAt offset ≤ source.lineCount := by
  obtain ⟨u, c, v, hcode, rfl, hspace, hnewline⟩ := h
  obtain ⟨before, after, htext, hmasks, -⟩ := source.code_masks.exists_around hcode hspace
  have htext' : source.text = before ++ [c] ++ after := by rw [htext]; simp
  have hsize : Text.size (u ++ [c]) = Text.size (before ++ [c]) := by
    rw [Text.size_append, Text.size_append, hmasks.size_eq]
  rw [hsize, source.lineAt_eq_of_no_newline htext' (by simpa using hnewline.symm)]
  apply source.lineAt_le_lineCount
  have hpos := c.utf8Size_pos
  rw [htext, Text.size_append, Text.size_cons]
  omega

theorem lineAt_le_lineCount_of_standsAt {c : Char} {offset : Nat} (h : source.code.StandsAt c offset) :
    source.lineAt offset ≤ source.lineCount := by
  apply source.lineAt_le_lineCount
  rw [← source.size_code]
  exact h.lt

end Source

theorem Text.StandsAt.char_eq {text : Text} {c d : Char} {offset : Nat} (hc : text.StandsAt c offset)
    (hd : text.StandsAt d offset) : c = d := by
  rw [← Text.charAt?_eq_some_iff] at hc hd
  exact Option.some.inj (hc.symm.trans hd)

/-! ### Definitions in braces -/

namespace Header.EndsBraced

variable {source : Source} {h k : Header}

theorem lineAt_stop_le (hh : h.EndsBraced source) : source.lineAt h.stop ≤ h.endLine := by
  cases hh with
  | block hopen hline =>
    rw [hline, Source.braceBlockEnd]
    split
    · rename_i close hclose
      exact source.lineAt_mono (Nat.le_of_lt (standsAt_of_closing? (by decide) hclose).2.2)
    · exact Nat.le_max_right _ _
  | line hsolid hline => exact Nat.le_of_eq hline.symm
  | named close left name right hclose hcode hleft hopener hcloser hsolid hline =>
    rw [hline]
    apply source.lineAt_mono
    have hlt := (standsAt_of_closing? (by decide) hclose).2.2
    rw [Text.size_append]
    omega

theorem endLine_le_lineCount (hk : k.EndsBraced source) : k.endLine ≤ source.lineCount := by
  cases hk with
  | block hopen hline =>
    rw [hline, Source.braceBlockEnd]
    split
    · rename_i close hclose
      exact Source.lineAt_le_lineCount_of_standsAt (standsAt_of_closing? (by decide) hclose).2.1
    · exact Nat.max_le.mpr ⟨Nat.le_refl _, Source.lineAt_le_lineCount_of_standsAt hopen⟩
  | line hsolid hline =>
    rw [hline]
    exact hsolid.lineAt_le_lineCount
  | named close left name right hclose hcode hleft hopener hcloser hsolid hline =>
    rw [hline]
    exact hsolid.lineAt_le_lineCount

/-- A definition whose header ends between two braces of a pair ends there too. -/
theorem endLine_le_of_closing (hk : k.EndsBraced source) {opened close : Nat}
    (hclose : closingBrace? source.code opened = some close) (hafter : opened < k.stop)
    (hbefore : k.stop < close) : k.endLine ≤ source.lineAt close := by
  cases hk with
  | block hopen hline =>
    obtain ⟨close', hclose', -, hlt⟩ := closing?_nested (by decide) hclose hopen hafter hbefore
    rw [hline, Source.braceBlockEnd, closingBrace?, hclose']
    exact source.lineAt_mono (Nat.le_of_lt hlt)
  | line hsolid hline =>
    rw [hline]
    exact source.lineAt_mono (Nat.le_of_lt hbefore)
  | named close' left name right hclose' hcode hleft hopener hcloser hsolid hline =>
    have hopen := (standsAt_of_closing? (by decide) hclose').1
    obtain ⟨inner, hinner, -, hlt⟩ := closing?_nested (by decide) hclose hopen hafter hbefore
    cases hinner.symm.trans hclose'
    rw [hline]
    apply source.lineAt_mono
    -- the name holds no brace, so it ends before the one that closes the outer pair
    by_contra hle
    have hstands := (standsAt_of_closing? (by decide) hclose).2.1
    rw [hcode] at hstands
    exact hcloser (hstands.mem_middle (by omega) (by omega))

/-- **Definitions in braces nest.** If one starts behind the header of another, and its header ends before the
other's last line, then it ends within the other. -/
theorem nested (hh : h.EndsBraced source) (hk : k.EndsBraced source) (hle : k.start ≤ k.stop)
    (hafter : source.lineAt h.stop < source.lineAt k.start) (hinside : source.lineAt k.start ≤ h.endLine)
    (hheader : source.lineAt k.stop < h.endLine) : k.endLine ≤ h.endLine := by
  have hstop : h.stop < k.stop := Nat.lt_of_lt_of_le (Source.lt_of_lineAt_lt hafter) hle
  cases hh with
  | block hopen hline =>
    cases hclose : closingBrace? source.code h.stop with
    | some close =>
      rw [Source.braceBlockEnd, hclose] at hline
      rw [hline] at hheader ⊢
      exact hk.endLine_le_of_closing hclose hstop (Source.lt_of_lineAt_lt hheader)
    | none =>
      rw [Source.braceBlockEnd, hclose] at hline
      rw [hline]
      exact Nat.le_trans hk.endLine_le_lineCount (Nat.le_max_left _ _)
  | line hsolid hline => omega
  | named close left name right hclose hcode hleft hopener hcloser hsolid hline =>
    rw [hline] at hheader ⊢
    have hend := Source.lt_of_lineAt_lt hheader
    by_cases hbefore : k.stop < close
    · refine Nat.le_trans (hk.endLine_le_of_closing hclose hstop hbefore) (source.lineAt_mono ?_)
      rw [Text.size_append]
      omega
    · -- no block opens from the closing brace to the end of the name
      have hnone : ¬ source.code.StandsAt '\x7b' k.stop := by
        intro hopen
        rcases Nat.eq_or_lt_of_le (Nat.le_of_not_lt hbefore) with heq | hlt
        · have hcloses := (standsAt_of_closing? (by decide) hclose).2.1
          rw [heq] at hcloses
          exact absurd (hopen.char_eq hcloses) (by decide)
        · rw [hcode] at hopen
          exact hopener (hopen.mem_middle (by omega) hend)
      cases hk with
      | block hopen _ => exact absurd hopen hnone
      | line _ hline' =>
        rw [hline']
        exact Nat.le_of_lt hheader
      | named _ _ _ _ hclose' =>
        exact absurd (standsAt_of_closing? (by decide) hclose').1 hnone

end Header.EndsBraced

/-! ### Indented definitions -/

namespace Header.EndsIndented

variable {source : Source} {h k : Header}

theorem lineAt_stop_le (hh : h.EndsIndented source) : source.lineAt h.stop ≤ h.endLine := by
  obtain ⟨-, indent, -, hline⟩ := hh
  rw [hline]
  exact source.le_indentedBlockEnd _ _

/-- **Indented definitions nest**, under the same conditions. -/
theorem nested (hfamily : source.language.family = .python) (hh : h.EndsIndented source)
    (hk : k.EndsIndented source) (hle : k.start ≤ k.stop)
    (hafter : source.lineAt h.stop < source.lineAt k.start) (hinside : source.lineAt k.start ≤ h.endLine)
    (hheader : source.lineAt k.stop < h.endLine) : k.endLine ≤ h.endLine := by
  obtain ⟨-, indent, -, hline⟩ := hh
  obtain ⟨hcolon, indent', hindent, hline'⟩ := hk
  rw [hline] at hinside hheader
  rw [hline, hline']
  exact Source.indentedBlockEnd_nested hfamily hindent hafter hinside (source.lineAt_mono hle)
    (Nat.le_of_lt hheader) (Source.lineAt_le_lineCount_of_standsAt hcolon)

end Header.EndsIndented

/-! ### All definitions -/

namespace Source.Places

variable {source : Source} {family : RuleFamily} {h k : Header}

theorem lineAt_start_le (hh : source.Places family h) : source.lineAt h.start ≤ h.endLine := by
  have hle := source.lineAt_mono hh.le
  cases hh.ends with
  | braced _ hends => exact Nat.le_trans hle hends.lineAt_stop_le
  | indented hends => exact Nat.le_trans hle hends.lineAt_stop_le

/-- A definition that starts later on a line of another ends within it, or the other is torn at a header. -/
theorem endLine_le_or_tornBy (hfamily : source.language.family = family) (hh : source.Places family h)
    (hk : source.Places family k) (hstarts : source.lineAt h.start < source.lineAt k.start)
    (hwithin : source.lineAt k.start ≤ h.endLine) : k.endLine ≤ h.endLine ∨ h.TornBy source k := by
  by_cases hends : k.endLine ≤ h.endLine
  · exact .inl hends
  · right
    refine ⟨hstarts, hwithin, Nat.lt_of_not_le hends, ?_⟩
    by_contra hclear
    rw [not_or, Nat.not_le, Nat.not_le] at hclear
    apply hends
    cases hh.ends with
    | braced hne hh' =>
      cases hk.ends with
      | braced _ hk' => exact hh'.nested hk' hk.le hclear.1 hwithin hclear.2
      | indented _ => exact absurd rfl hne
    | indented hh' =>
      cases hk.ends with
      | braced hne _ => exact absurd rfl hne
      | indented hk' => exact hh'.nested hfamily hk' hk.le hclear.1 hwithin hclear.2

end Source.Places

/-- The lines of a symbol are those of its header's definition. -/
theorem Extraction.Heads.lines {source : Source} {h : Header} {s : Symbol} (hs : Heads source h s) :
    s.startLine = source.lineAt h.start ∧ s.endLine = h.endLine := by
  obtain ⟨signature, body, heq⟩ := Header.symbol?_eq hs.places.heads hs.places.boundary
  cases heq.symm.trans hs.symbol
  exact ⟨rfl, Nat.max_eq_left hs.places.lineAt_start_le⟩

/-- **Ranges nest unless a header tears them.** Two symbols of a source have headers in its code. Their line ranges
lie apart or within one another exactly if, of all such headers, neither tears the definition of the other: no
definition ends before another that starts later on one of its lines, where the second starts on a line of the
first header or the first ends on a line of the second header. -/
theorem ranges_nest_iff (source : Source) {s t : Symbol} (hs : s ∈ (Extraction.ofSource source).symbols)
    (ht : t ∈ (Extraction.ofSource source).symbols) :
    (∃ h, Extraction.Heads source h s) ∧ (∃ k, Extraction.Heads source k t) ∧
      ∀ h k, Extraction.Heads source h s → Extraction.Heads source k t →
        (s.Nests t ↔ ¬ h.TornBy source k ∧ ¬ k.TornBy source h) := by
  refine ⟨Extraction.exists_heads hs, Extraction.exists_heads ht, ?_⟩
  intro h k hh hk
  obtain ⟨hstart, hend⟩ := hh.lines
  obtain ⟨hstart', hend'⟩ := hk.lines
  rw [Symbol.Nests, hstart, hend, hstart', hend']
  constructor
  · intro hnests
    refine ⟨fun htorn => ?_, fun htorn => ?_⟩
    · obtain ⟨hstarts, hwithin, hends, -⟩ := htorn
      omega
    · obtain ⟨hstarts, hwithin, hends, -⟩ := htorn
      omega
  · intro hclear
    have hle := hh.places.lineAt_start_le
    have hle' := hk.places.lineAt_start_le
    rcases Nat.lt_trichotomy (source.lineAt h.start) (source.lineAt k.start) with hlt | heq | hgt
    · by_cases hwithin : source.lineAt k.start ≤ h.endLine
      · have hends := (hh.places.endLine_le_or_tornBy rfl hk.places hlt hwithin).resolve_right hclear.1
        exact .inr (.inr (.inl ⟨Nat.le_of_lt hlt, hends⟩))
      · exact .inl (Nat.lt_of_not_le hwithin)
    · -- of two that start on one line, the one that ends last holds the other
      omega
    · by_cases hwithin : source.lineAt h.start ≤ k.endLine
      · have hends := (hk.places.endLine_le_or_tornBy rfl hh.places hgt hwithin).resolve_right hclear.2
        exact .inr (.inr (.inr ⟨Nat.le_of_lt hgt, hends⟩))
      · exact .inr (.inl (Nat.lt_of_not_le hwithin))

/-- A class with a method whose header goes on over an indented line. -/
def indentedHeader : Source :=
  Source.ofText "a.py" .python "class A:\n def f(\n  x): 0\n".toList

/-- The class, from its header to the end of the method. -/
def indentedClass : Symbol :=
  ⟨"A", .structOrClass, "a.py", 1, 3, "class A", "class A:\n def f(\n  x): 0"⟩

/-- The method. -/
def indentedMethod : Symbol :=
  ⟨"f", .function, "a.py", 2, 3, "def f( x)", " def f(\n  x): 0"⟩

/-- Both are found, and neither tears the other. -/
theorem indentedHeader_ranges_nest :
    indentedClass ∈ (Extraction.ofSource indentedHeader).symbols ∧
    indentedMethod ∈ (Extraction.ofSource indentedHeader).symbols ∧
    ∃ h k, Extraction.Heads indentedHeader h indentedClass ∧ Extraction.Heads indentedHeader k indentedMethod ∧
      ¬ h.TornBy indentedHeader k ∧ ¬ k.TornBy indentedHeader h := by
  have hsymbols : (Extraction.ofSource indentedHeader).symbols = [indentedClass, indentedMethod] := by
    decide +kernel
  have hclass : indentedClass ∈ (Extraction.ofSource indentedHeader).symbols := by rw [hsymbols]; simp
  have hmethod : indentedMethod ∈ (Extraction.ofSource indentedHeader).symbols := by rw [hsymbols]; simp
  obtain ⟨⟨h, hh⟩, ⟨k, hk⟩, hiff⟩ := ranges_nest_iff indentedHeader hclass hmethod
  exact ⟨hclass, hmethod, h, k, hh, hk, (hiff h k hh hk).mp (by decide)⟩

/-- The same class, but the second line of the method's header is not indented. -/
def tornHeader : Source :=
  Source.ofText "a.py" .python "class A:\n def f(\nx): 0\n".toList

/-- **Ranges can cross.** The class ends on the line on which the header of its method starts, and the method ends
on the next one. -/
theorem tornHeader_ranges_cross :
    ∃ s ∈ (Extraction.ofSource tornHeader).symbols, ∃ t ∈ (Extraction.ofSource tornHeader).symbols,
      ¬ s.Nests t := by
  decide +kernel

end CodeAtlas
