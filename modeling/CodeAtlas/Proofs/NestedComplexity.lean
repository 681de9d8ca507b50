import CodeAtlas.Proofs.EdgeMentions
import CodeAtlas.Query.Complexity

/-!
# Complexity of nested symbols

The counts in the complexity of a symbol are read off the code of its lines. This file compares two symbols of which
one lies within the lines of the other: what is counted in the lines of the inner one is counted in those of the
outer one as well. Lines are cut out at line feeds, so around the inner code stand line feeds, or the spaces that
blank them, and neither a word nor an operator reaches across its edges.

* `Text.StandsApartIn`: a text in another one, with a line feed or a space on either side;
* `lexemes_append`, `branchPoints_append`, `callSites_append`: what is counted on the two sides of such a character;
* `Source.codeLines?_standsApart`: the code of some lines within the code of more lines;
* `CallGraph.complexity_nested`: no count of the inner symbol exceeds that of the outer one.
-/

namespace CodeAtlas

namespace Text

/-- A line feed, or the space that blanks one. -/
def IsGap (c : Char) : Prop :=
  c = '\n' ∨ c = ' '

/-- A text stands in another one, with a line feed, a space or the end of that one on either side. -/
def StandsApartIn (inner outer : Text) : Prop :=
  ∃ left right, outer = left ++ inner ++ right ∧ (∀ c ∈ left.getLast?, IsGap c) ∧ ∀ c ∈ right.head?, IsGap c

theorem StandsApartIn.isInfix {inner outer : Text} (h : inner.StandsApartIn outer) : inner <:+: outer := by
  obtain ⟨left, right, houter, -⟩ := h
  exact ⟨left, right, houter.symm⟩

theorem IsGap.isWord {c : Char} (h : IsGap c) : isWord c = false := by
  rcases h with rfl | rfl
  · decide
  · decide

end Text

/-! ### Words and operators -/

/-- A character that is in no word ends the lexeme before it. -/
theorem lexemesFrom_append {c : Char} (hc : Text.isWord c = false) (left right : Text) :
    ∀ begun, lexemesFrom begun (left ++ c :: right) = lexemesFrom begun left ++ .other c :: lexemes right := by
  induction left with
  | nil =>
    intro begun
    have hword : ¬Text.isWord c = true := by
      rw [hc]
      decide
    rw [List.nil_append, lexemesFrom, lexemesFrom, if_neg hword]
    split_ifs
    · rfl
    · rfl
  | cons d left ih =>
    intro begun
    rw [List.cons_append, lexemesFrom, lexemesFrom]
    split_ifs
    · exact ih _
    · rw [ih, List.cons_append]
    · rw [ih, List.cons_append, List.cons_append]

theorem lexemes_append {c : Char} (hc : Text.isWord c = false) (left right : Text) :
    lexemes (left ++ c :: right) = lexemes left ++ .other c :: lexemes right :=
  lexemesFrom_append hc left right []

/-- No operator reaches over a line feed or a space. -/
theorem branchPoints_append {c : Char} (hc : Text.IsGap c) (left right : List Lexeme) :
    branchPoints (left ++ .other c :: right) = branchPoints left + branchPoints right := by
  have hgap : branchPoints (.other c :: right) = branchPoints right := by
    rcases hc with rfl | rfl
    · rfl
    · rfl
  fun_induction branchPoints left with
  | case1 => rw [List.nil_append, hgap, Nat.zero_add]
  | case2 w rest ih => rw [List.cons_append, branchPoints, ih, Nat.add_assoc]
  | case3 rest ih => rw [List.cons_append, List.cons_append, branchPoints, ih, Nat.add_assoc]
  | case4 rest ih => rw [List.cons_append, List.cons_append, branchPoints, ih, Nat.add_assoc]
  | case5 d rest hand hor ih =>
    -- a second sign would have stood behind the first one before
    have hhead : ∀ sign tail, sign ≠ c → rest ++ .other c :: right = .other sign :: tail →
        ∃ rest', rest = .other sign :: rest' := by
      intro sign tail hsign h
      cases rest with
      | nil =>
        cases h
        exact absurd rfl hsign
      | cons x rest => exact ⟨rest, by rw [(List.cons.inj h).1]⟩
    rw [List.cons_append, branchPoints, ih]
    · intro tail htail hd
      obtain ⟨rest', hrest⟩ := hhead '&' tail (by rcases hc with rfl | rfl <;> decide) htail
      exact hand rest' hrest hd
    · intro tail htail hd
      obtain ⟨rest', hrest⟩ := hhead '|' tail (by rcases hc with rfl | rfl <;> decide) htail
      exact hor rest' hrest hd

theorem parenFollows_append {left : List Lexeme} (right : List Lexeme) (h : parenFollows left = true) :
    parenFollows (left ++ right) = true := by
  fun_induction parenFollows left with
  | case1 c rest hc ih =>
    rw [List.cons_append, parenFollows, if_pos hc]
    exact ih h
  | case2 c rest hc =>
    rw [List.cons_append, parenFollows, if_neg hc]
    exact h
  | case3 => cases h

/-- A name may be called by a parenthesis on a later line, so more can be counted in both parts together than in each
of them. -/
theorem callSites_append (left right : List Lexeme) : callSites left + callSites right ≤ callSites (left ++ right) := by
  fun_induction callSites left with
  | case1 => rw [List.nil_append, Nat.zero_add]
  | case2 w rest ih =>
    rw [List.cons_append, callSites]
    have hcall : (if isCallable w && parenFollows rest then 1 else 0)
        ≤ if isCallable w && parenFollows (rest ++ right) then 1 else 0 := by
      split_ifs with h h'
      · exact Nat.le_refl 1
      · rw [Bool.and_eq_true] at h h'
        exact absurd ⟨h.1, parenFollows_append right h.2⟩ h'
      · exact Nat.zero_le 1
      · exact Nat.le_refl 0
    omega
  | case3 c rest ih =>
    rw [List.cons_append, callSites]
    exact ih

/-- What follows behind a gap takes nothing away from the counts. -/
theorem counts_le_append (inner : Text) {right : Text} (hright : ∀ c ∈ right.head?, Text.IsGap c) :
    branchPoints (lexemes inner) ≤ branchPoints (lexemes (inner ++ right)) ∧
      callSites (lexemes inner) ≤ callSites (lexemes (inner ++ right)) := by
  cases right with
  | nil =>
    rw [List.append_nil]
    exact ⟨Nat.le_refl _, Nat.le_refl _⟩
  | cons c right =>
    have hc : Text.IsGap c := hright c rfl
    rw [lexemes_append hc.isWord, branchPoints_append hc]
    have hcalls := callSites_append (lexemes inner) (.other c :: lexemes right)
    omega

/-- Nor does what stands before one. -/
theorem counts_append_le (right : Text) {left : Text} (hleft : ∀ c ∈ left.getLast?, Text.IsGap c) :
    branchPoints (lexemes right) ≤ branchPoints (lexemes (left ++ right)) ∧
      callSites (lexemes right) ≤ callSites (lexemes (left ++ right)) := by
  rcases List.eq_nil_or_concat left with rfl | ⟨init, c, rfl⟩
  · exact ⟨Nat.le_refl _, Nat.le_refl _⟩
  · rw [List.concat_eq_append] at hleft ⊢
    have hc : Text.IsGap c := hleft c (by rw [List.getLast?_concat]; rfl)
    rw [List.append_assoc, List.singleton_append, lexemes_append hc.isWord, branchPoints_append hc]
    have hcalls := callSites_append (lexemes init) (.other c :: lexemes right)
    rw [callSites] at hcalls
    omega

/-- What is counted in a text is counted in one in which it stands apart. -/
theorem Text.StandsApartIn.counts_le {inner outer : Text} (h : inner.StandsApartIn outer) :
    branchPoints (lexemes inner) ≤ branchPoints (lexemes outer) ∧
      callSites (lexemes inner) ≤ callSites (lexemes outer) := by
  obtain ⟨left, right, rfl, hleft, hright⟩ := h
  rw [List.append_assoc]
  have hbehind := counts_le_append inner hright
  have hbefore := counts_append_le (inner ++ right) hleft
  exact ⟨hbehind.1.trans hbefore.1, hbehind.2.trans hbefore.2⟩

/-! ### Reports -/

namespace ComplexityLevel

/-- The place of a level among the levels, the lowest first. -/
def rank : ComplexityLevel → Nat
  | low => 0
  | moderate => 1
  | high => 2
  | veryHigh => 3

instance : LE ComplexityLevel :=
  ⟨fun a b => a.rank ≤ b.rank⟩

theorem ofScore_mono {a b : Nat} (h : a ≤ b) : ofScore a ≤ ofScore b := by
  show (ofScore a).rank ≤ (ofScore b).rank
  grind [ofScore, rank]

end ComplexityLevel

/-- No count of a report exceeds that of another one. -/
structure ComplexityReport.AtMost (small large : ComplexityReport) : Prop where
  totalLines : small.totalLines ≤ large.totalLines
  codeLines : small.codeLines ≤ large.codeLines
  branchPoints : small.branchPoints ≤ large.branchPoints
  callSites : small.callSites ≤ large.callSites
  cyclomatic : small.cyclomatic ≤ large.cyclomatic
  score : small.score ≤ large.score
  level : small.level ≤ large.level

/-- The report on some code that stands apart in other code. -/
theorem Text.StandsApartIn.report_atMost {inner outer : Text} (h : inner.StandsApartIn outer) (id id' : SymbolId) :
    (ComplexityReport.ofCode id inner).AtMost (ComplexityReport.ofCode id' outer) := by
  have hlines := Text.length_lines_le h.isInfix
  have hwritten : (Text.lines inner).countP (fun line => !(Text.trim line).isEmpty)
      ≤ (Text.lines outer).countP fun line => !(Text.trim line).isEmpty := by
    rw [Text.countP_lines, Text.countP_lines]
    exact Text.writtenLines_le h.isInfix
  obtain ⟨hbranches, hcalls⟩ := h.counts_le
  have hscore : (ComplexityReport.ofCode id inner).score ≤ (ComplexityReport.ofCode id' outer).score :=
    Nat.add_le_add (Nat.add_le_add_left hbranches 1) (Nat.div_le_div_right hwritten)
  exact {
    totalLines := max_le_max hlines (Nat.le_refl 1)
    codeLines := hwritten
    branchPoints := hbranches
    callSites := hcalls
    cyclomatic := Nat.add_le_add_left hbranches 1
    score := hscore
    level := ComplexityLevel.ofScore_mono hscore }

/-! ### Lines within lines -/

namespace CodeView.Masks

variable {view text : Text}

theorem isGap_of_newline (h : Masks view ['\n']) : ∃ c, view = [c] ∧ Text.IsGap c := by
  cases h with
  | keep _ h =>
    cases h
    exact ⟨'\n', rfl, .inl rfl⟩
  | blank _ h =>
    cases h
    exact ⟨' ', rfl, .inr rfl⟩

/-- The view of a text that a line feed ends. -/
theorem isGap_getLast? (h : Masks view text) (hlast : ∀ c ∈ text.getLast?, c = '\n') :
    ∀ c ∈ view.getLast?, Text.IsGap c := by
  rcases List.eq_nil_or_concat text with rfl | ⟨init, d, rfl⟩
  · cases h
    simp
  · rw [List.concat_eq_append] at h hlast
    obtain rfl : d = '\n' := hlast d (by rw [List.getLast?_concat]; rfl)
    obtain ⟨v, w, rfl, -, hw⟩ := h.split
    obtain ⟨c, rfl, hc⟩ := hw.isGap_of_newline
    rw [List.getLast?_concat]
    rintro _ ⟨rfl⟩
    exact hc

/-- The view of a text that a line feed starts. -/
theorem isGap_head? (h : Masks view text) (hhead : ∀ c ∈ text.head?, c = '\n') :
    ∀ c ∈ view.head?, Text.IsGap c := by
  cases text with
  | nil =>
    cases h
    simp
  | cons d text =>
    obtain rfl : d = '\n' := hhead d rfl
    obtain ⟨v, w, rfl, hv, -⟩ := (show Masks view (['\n'] ++ text) from h).split
    obtain ⟨c, rfl, hc⟩ := hv.isGap_of_newline
    rintro _ ⟨rfl⟩
    exact hc

end CodeView.Masks

namespace Source

variable {source : Source} {first last start stop : Nat}

/-- The bytes of lines within other lines: between their edges stand whole lines. -/
theorem exists_nestedParts (hstart : 1 ≤ start) (hfirst : start ≤ first) (hle : first ≤ last) (hlast : last ≤ stop)
    (hstop : stop ≤ source.lineCount) :
    ∃ before left middle right after, source.text = before ++ (left ++ middle ++ right) ++ after ∧
      source.lineSpan? start stop = some ⟨Text.size before, Text.size (before ++ (left ++ middle ++ right))⟩ ∧
      source.lineSpan? first last = some ⟨Text.size (before ++ left), Text.size (before ++ left ++ middle)⟩ ∧
      (∀ c ∈ left.getLast?, c = '\n') ∧ ∀ c ∈ right.head?, c = '\n' := by
  obtain ⟨before, whole, after, houter, hspan, hcount, hcount', hbefore, hafter⟩ :=
    source.exists_lineParts hstart (by omega) hstop
  obtain ⟨front, middle, rest, hinner, hspan', hline, hline', hfront, hrest⟩ :=
    source.exists_lineParts (by omega) hle (by omega)
  have hstarts : before ++ (whole ++ after) = front ++ (middle ++ rest) := by
    rw [← List.append_assoc, ← List.append_assoc, ← houter, hinner]
  obtain ⟨left, rfl, -⟩ := Text.exists_append_of_count_le hstarts (by omega) (.inl hbefore)
  obtain ⟨right, hwhole, rfl⟩ := Text.exists_append_of_count_le (hinner.symm.trans houter) (by omega) (.inr hafter)
  obtain rfl : whole = left ++ middle ++ right := by
    rw [List.append_assoc, List.append_assoc, List.append_cancel_left_eq] at hwhole
    rw [hwhole, List.append_assoc]
  refine ⟨before, left, middle, right, after, houter, hspan, hspan', ?_, ?_⟩
  · intro c hc
    exact hfront c (by rw [List.getLast?_append, Option.mem_def.mp hc]; rfl)
  · intro c hc
    exact hrest c (by rw [List.head?_append, Option.mem_def.mp hc]; rfl)

/-- **The code of some lines stands apart in the code of more lines.** -/
theorem codeLines?_standsApart (hstart : 1 ≤ start) (hfirst : start ≤ first) (hle : first ≤ last)
    (hlast : last ≤ stop) (hstop : stop ≤ source.lineCount) :
    ∃ inner outer, source.codeLines? first last = some inner ∧ source.codeLines? start stop = some outer ∧
      inner.StandsApartIn outer := by
  obtain ⟨before, left, middle, right, after, htext, houter, hinner, hleft, hright⟩ :=
    exists_nestedParts hstart hfirst hle hlast hstop
  have hmasks := source.code_masks
  rw [htext] at hmasks
  obtain ⟨front, z, hcode, hfront, -⟩ := hmasks.split
  obtain ⟨a, whole, rfl, ha, hwhole⟩ := hfront.split
  obtain ⟨init, r, rfl, hinit, hr⟩ := hwhole.split
  obtain ⟨l, m, rfl, hl, hm⟩ := hinit.split
  have hcode' : source.code = (a ++ l) ++ m ++ (r ++ z) := by
    rw [hcode]
    simp only [List.append_assoc]
  refine ⟨m, l ++ m ++ r, codeLines?_eq hcode' ?_, codeLines?_eq hcode ?_, l, r, rfl, hl.isGap_getLast? hleft,
    hr.isGap_head? hright⟩
  · rw [hinner, (ha.append hl).size_eq, ((ha.append hl).append hm).size_eq]
  · rw [houter, ha.size_eq, hfront.size_eq]

end Source

/-! ### Symbols within symbols -/

/-- The complexity of a symbol is that of the code of its lines. -/
theorem CallGraph.complexity?_ofSources {sources : List Source} (limits : Limits) {s : Symbol} {source : Source}
    {code : Text} (hs : s ∈ (SymbolTable.ofSources sources).symbols)
    (hsource : (SymbolTable.ofSources sources).source? s.file = some source)
    (hcode : source.codeLines? s.startLine s.endLine = some code) :
    (ofSources sources limits).complexity? s.id = some (.ofCode s.id code) := by
  have hget : (SymbolTable.ofSources sources).get? s.id = some s := SymbolTable.get?_eq_some_iff.mpr ⟨hs, rfl⟩
  show ((SymbolTable.ofSources sources).get? s.id).map
    (fun t => ComplexityReport.ofCode s.id ((SymbolTable.ofSources sources).codeOf t)) = _
  rw [hget, Option.map_some, SymbolTable.codeOf_eq hsource hcode]

/-- **The complexity of nested symbols.** Take sources under keys of their own and two symbols of their table that
stand in one file, the lines of the inner one among those of the outer one. Both have a complexity, and neither a
count nor the level of the inner symbol exceeds that of the outer one. -/
theorem CallGraph.complexity_nested (sources : List Source) (limits : Limits)
    (hkeys : (sources.map Source.key).Nodup) (inner outer : Symbol)
    (hinner : inner ∈ (SymbolTable.ofSources sources).symbols)
    (houter : outer ∈ (SymbolTable.ofSources sources).symbols) (hfile : inner.file = outer.file)
    (hstart : outer.startLine ≤ inner.startLine) (hend : inner.endLine ≤ outer.endLine) :
    ∃ small large, (ofSources sources limits).complexity? inner.id = some small ∧
      (ofSources sources limits).complexity? outer.id = some large ∧ small.AtMost large := by
  obtain ⟨source, -, hcut, hstored⟩ := SymbolTable.exists_source_of_mem hkeys hinner
  obtain ⟨source', -, hcut', hstored'⟩ := SymbolTable.exists_source_of_mem hkeys houter
  obtain rfl : source = source' := by
    rw [hfile, hstored'] at hstored
    exact (Option.some.inj hstored).symm
  obtain ⟨code, code', hcode, hcode', happart⟩ := source.codeLines?_standsApart hcut'.one_le_startLine hstart
    hcut.startLine_le_endLine hend hcut'.endLine_le_lineCount
  refine ⟨.ofCode inner.id code, .ofCode outer.id code', ?_, ?_, happart.report_atMost _ _⟩
  · exact complexity?_ofSources limits hinner hstored hcode
  · exact complexity?_ofSources limits houter hstored' hcode'

/-- A function within another one, which calls it over the end of a line. -/
def nestedSource : Source :=
  Source.ofText "a.js" .javaScript
    "function f() \x7b\n  function g() \x7b if (a && b) h(); \x7d\n  g\n  (c);\n\x7d\n".toList

/-- The function around. -/
def outerFunction : Symbol :=
  ⟨"f", .function, "a.js", 1, 5, "function f()",
    "function f() \x7b\n  function g() \x7b if (a && b) h(); \x7d\n  g\n  (c);\n\x7d"⟩

/-- The function within. -/
def innerFunction : Symbol :=
  ⟨"g", .function, "a.js", 2, 2, "function g()", "  function g() \x7b if (a && b) h(); \x7d"⟩

/-- The report on the function around: its name and that of the function within are counted as called, and so is the
call over the end of a line. -/
def outerReport : ComplexityReport :=
  ⟨⟨"f", "a.js", 1⟩, 5, 5, 2, 4, 3, 3, .low⟩

/-- The report on the function within. -/
def innerReport : ComplexityReport :=
  ⟨⟨"g", "a.js", 2⟩, 1, 1, 2, 2, 3, 3, .low⟩

/-- Both functions are in the table, and no count in the report on the inner one exceeds that on the outer one. -/
theorem CallGraph.nestedSource_complexity :
    ([nestedSource].map Source.key).Nodup ∧
    innerFunction ∈ (SymbolTable.ofSources [nestedSource]).symbols ∧
    outerFunction ∈ (SymbolTable.ofSources [nestedSource]).symbols ∧
    innerFunction.file = outerFunction.file ∧ outerFunction.startLine ≤ innerFunction.startLine ∧
    innerFunction.endLine ≤ outerFunction.endLine ∧
    (ofSources [nestedSource] {}).complexity? innerFunction.id = some innerReport ∧
    (ofSources [nestedSource] {}).complexity? outerFunction.id = some outerReport ∧
    innerReport.AtMost outerReport := by
  have hkeys : ([nestedSource].map Source.key).Nodup := by decide
  obtain ⟨hinner, houter, hsmall, hlarge⟩ : innerFunction ∈ (SymbolTable.ofSources [nestedSource]).symbols ∧
      outerFunction ∈ (SymbolTable.ofSources [nestedSource]).symbols ∧
      (ofSources [nestedSource] {}).complexity? innerFunction.id = some innerReport ∧
      (ofSources [nestedSource] {}).complexity? outerFunction.id = some outerReport := by decide +kernel
  obtain ⟨small, large, hsmall', hlarge', hle⟩ :=
    complexity_nested [nestedSource] {} hkeys innerFunction outerFunction hinner houter rfl (by decide) (by decide)
  cases hsmall.symm.trans hsmall'
  cases hlarge.symm.trans hlarge'
  exact ⟨hkeys, hinner, houter, rfl, by decide, by decide, hsmall, hlarge, hle⟩

end CodeAtlas
