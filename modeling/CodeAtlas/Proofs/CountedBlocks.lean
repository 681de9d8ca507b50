import CodeAtlas.Proofs.KeptSymbols
import CodeAtlas.Proofs.PatternForms
import CodeAtlas.Proofs.SymbolNames

/-!
# Blocks that run into the end of the file

An extraction counts the blocks that never close. A block is counted when its rule looks at it, before it is known
whether a symbol comes of it: some counted blocks have no name, and some have the name and first line of a definition
that was found before. This file balances the count against the symbols that end with the file.

* `Finding.RunsOut`: a counted block is that of a definition that goes on to the last line;
* `Extraction.namelessBlocks`: the counted blocks that no definition belongs to;
* `Extraction.lostBlocks`: the counted blocks that leave no symbol;
* `Extraction.unterminated_le_ending_iff`: when the count is at most the number of symbols that end with the file.
-/

namespace CodeAtlas

open Pattern

theorem Text.sub_one_of_before? {offset before : Nat} (h : Text.before? offset = some before) :
    offset - 1 = before := by
  cases offset with
  | zero => cases h
  | succ n => cases h; rfl

/-! ### Counted blocks of definitions -/

theorem Source.lineCount_le_braceBlockEnd {source : Source} {start : Nat}
    (h : (source.braceBlockEnd start).unterminated = true) :
    source.lineCount ≤ (source.braceBlockEnd start).line := by
  unfold braceBlockEnd at h ⊢
  split at h
  · cases h
  · exact Nat.le_max_left _ _

/-- If the finding is counted, it is a definition that goes on to the last line. -/
def Finding.RunsOut (source : Source) (f : Finding) : Prop :=
  f.unterminated = true → ∃ h, f.header = some h ∧ source.lineCount ≤ h.endLine

theorem Finding.runsOut_of_terminated (source : Source) (header : Option Header) :
    Finding.RunsOut source ⟨header, false⟩ := by
  intro h
  cases h

theorem Finding.runsOut_block (source : Source) (name : Text) (kind : SymbolKind) (start opened : Nat) :
    Finding.RunsOut source ⟨some ⟨name, kind, start, opened, (source.braceBlockEnd opened).line⟩,
      (source.braceBlockEnd opened).unterminated⟩ :=
  fun h => ⟨_, rfl, Source.lineCount_le_braceBlockEnd h⟩

theorem CFamily.runsOut_functionAt? {source : Source} {m : Match} {f : Finding}
    (hf : functionAt? source m = some f) : f.RunsOut source := by
  unfold functionAt? at hf
  split at hf
  · simp only [Option.bind_eq_bind, Option.bind_eq_some_iff] at hf
    obtain ⟨qualified, -, hf⟩ := hf
    split_ifs at hf
    · cases hf
      exact Finding.runsOut_of_terminated source none
    · rw [Option.bind_eq_some_iff] at hf
      obtain ⟨openParen, -, hf⟩ := hf
      split at hf
      · rw [Option.bind_eq_some_iff] at hf
        obtain ⟨rest, -, hf⟩ := hf
        split at hf
        · rw [Option.bind_eq_some_iff] at hf
          obtain ⟨before, -, hf⟩ := hf
          split_ifs at hf
          · cases hf
            exact Finding.runsOut_of_terminated source none
          · cases hf
            exact Finding.runsOut_block source _ _ _ _
        · cases hf
          exact Finding.runsOut_of_terminated source none
      · cases hf
        exact Finding.runsOut_of_terminated source none
  · cases hf
    exact Finding.runsOut_of_terminated source none

theorem CFamily.runsOut_recordAt? {source : Source} {m : Match} {f : Finding}
    (hf : recordAt? source m = some f) : f.RunsOut source := by
  unfold recordAt? at hf
  split at hf
  · simp only [Option.bind_eq_bind, Option.bind_eq_some_iff] at hf
    obtain ⟨name, -, openBrace, -, hf⟩ := hf
    cases hf
    exact Finding.runsOut_block source _ _ _ _
  · cases hf
    exact Finding.runsOut_of_terminated source none

theorem Braces.runsOut_definitionAt? {source : Source} {rule : Rule} {m : Match} {f : Finding}
    (hf : definitionAt? source rule m = some f) : f.RunsOut source := by
  unfold definitionAt? at hf
  split at hf
  · simp only [Option.bind_eq_bind, Option.bind_eq_some_iff] at hf
    obtain ⟨name, -, words, -, hf⟩ := hf
    by_cases hrefused : (rule.ambiguous && (name :: words).any isRefused) = true
    · rw [if_pos hrefused] at hf
      cases hf
      exact Finding.runsOut_of_terminated source none
    · simp only [if_neg hrefused, Option.bind_eq_some_iff] at hf
      obtain ⟨last, -, endsOpen, -, hf⟩ := hf
      split at hf
      · cases hf
        exact Finding.runsOut_block source _ _ _ _
      · split_ifs at hf
        all_goals
          cases hf
          exact Finding.runsOut_of_terminated source _
  · cases hf
    exact Finding.runsOut_of_terminated source none

/-! ### Counted blocks without a definition -/

/-- A typedef without a name is counted exactly if its block never closes, and then it is no definition. -/
theorem CFamily.unterminated_typedefAt? {source : Source} {m : Match} {f : Finding}
    (hf : typedefAt? source m = some f) :
    (f.unterminated && f.header.isNone) = (closingBrace? source.code (m.span.stop - 1)).isNone ∧
      (f.unterminated = true → f.header = none) := by
  unfold typedefAt? at hf
  simp only [Option.bind_eq_bind, Option.bind_eq_some_iff] at hf
  obtain ⟨openBrace, hbefore, hf⟩ := hf
  rw [Text.sub_one_of_before? hbefore]
  cases hclose : closingBrace? source.code openBrace with
  | none =>
    rw [hclose] at hf
    cases hf
    exact ⟨rfl, fun _ => rfl⟩
  | some close =>
    have hterminated : f.unterminated = false := by
      simp only [hclose, Option.bind_eq_some_iff] at hf
      obtain ⟨rest, -, hf⟩ := hf
      split at hf
      · split at hf
        · rw [Option.bind_eq_some_iff] at hf
          obtain ⟨name, -, hf⟩ := hf
          cases hf
          rfl
        · cases hf
          rfl
      · cases hf
        rfl
    rw [hterminated]
    exact ⟨rfl, fun h => absurd h Bool.false_ne_true⟩

/-- An indented definition is counted exactly if its header has no colon, and then it is no definition. -/
theorem Python.unterminated_blockAt? {source : Source} {p : Pattern} {kind : SymbolKind} {m : Match} {f : Finding}
    (hm : m ∈ p.findAll source.code) (hp : ∀ slot ∈ [2, 3, 4, 5], p.records slot = true)
    (hf : blockAt? source kind m = some f) :
    (f.unterminated && f.header.isNone) = (headerColon? source.code (m.span.stop - 1) == some none) ∧
      (f.unterminated = true → f.header = none) := by
  have hfinds := finds_of_mem_findAll hm
  obtain ⟨group, hgroup⟩ := hfinds.exists_group 1 (hp 2 (by decide)) (hp 3 (by decide))
  obtain ⟨indentGroup, hindent⟩ := hfinds.exists_group 2 (hp 4 (by decide)) (hp 5 (by decide))
  unfold blockAt? at hf
  simp only [hgroup, hindent, Option.bind_eq_bind, Option.bind_eq_some_iff] at hf
  obtain ⟨last, hbefore, colon, hcolon, hf⟩ := hf
  rw [Text.sub_one_of_before? hbefore, hcolon]
  cases colon with
  | none =>
    cases hf
    exact ⟨rfl, fun _ => rfl⟩
  | some colon =>
    simp only [Option.bind_eq_some_iff] at hf
    obtain ⟨name, -, indent, -, hf⟩ := hf
    cases hf
    exact ⟨rfl, fun h => absurd h Bool.false_ne_true⟩

/-! ### The balance -/

theorem countP_of_mapM {α β : Type} {f : α → Option β} {p : β → Bool} {q : α → Bool} {xs : List α} {ys : List β}
    (h : xs.mapM f = some ys) (hpq : ∀ x ∈ xs, ∀ y, f x = some y → p y = q x) : ys.countP p = xs.countP q := by
  have hall := forall₂_of_mapM h
  clear h
  induction hall with
  | nil => rfl
  | @cons x y xs ys hxy _ ih =>
    rw [List.countP_cons, List.countP_cons, hpq x List.mem_cons_self y hxy,
      ih fun x' hx' => hpq x' (List.mem_cons_of_mem x hx')]

namespace Extraction

/-- The number of counted blocks that no definition belongs to: those of typedefs that never close, before the name
is known, and headers without a colon. -/
def namelessBlocks (source : Source) : RuleFamily → Nat
  | .generic => 0
  | .cFamily =>
    (CFamily.anonymousTypedef.findAll source.code).countP fun m =>
      (closingBrace? source.code (m.span.stop - 1)).isNone
  | .python =>
    (Python.functionHeader.findAll source.code ++ Python.classHeader.findAll source.code).countP fun m =>
      Python.headerColon? source.code (m.span.stop - 1) == some none

/-- The number of counted blocks that leave no symbol: no definition belongs to them, or one that was found before has
its name and first line. -/
def lostBlocks (family : RuleFamily) (source : Source) (findings : List Finding) : Nat :=
  namelessBlocks source family + (Finding.displaced source findings).countP Finding.unterminated

end Extraction

/-- The counted block of a definition goes on to the last line. -/
theorem Finding.RunsOut.le_endLine {source : Source} {f : Finding} {h : Header} (hf : f.RunsOut source)
    (hcounted : f.unterminated = true) (hh : f.header = some h) : source.lineCount ≤ h.endLine := by
  obtain ⟨h', hh', hle⟩ := hf hcounted
  cases hh'.symm.trans hh
  exact hle

theorem Finding.countP_of_runsOut {source : Source} {findings : List Finding}
    (h : ∀ f ∈ findings, f.RunsOut source) : (findings.countP fun f => f.unterminated && f.header.isNone) = 0 := by
  rw [List.countP_eq_zero]
  intro f hf hcounted
  rw [Bool.and_eq_true] at hcounted
  obtain ⟨h, hh, -⟩ := h f hf hcounted.1
  rw [hh] at hcounted
  exact absurd hcounted.2 Bool.false_ne_true

namespace Extraction

/-- What is counted by the rules of a family: definitions that go on to the last line, and blocks without one. -/
structure Counts (source : Source) (family : RuleFamily) (findings : List Finding) : Prop where
  le_endLine : ∀ f ∈ findings, f.unterminated = true → ∀ h, f.header = some h → source.lineCount ≤ h.endLine
  nameless : (findings.countP fun f => f.unterminated && f.header.isNone) = namelessBlocks source family

theorem counts_generic {source : Source} {findings : List Finding} (h : Braces.findings? source = some findings) :
    Counts source .generic findings := by
  unfold Braces.findings? at h
  simp only [Option.bind_eq_bind, Option.bind_eq_some_iff] at h
  obtain ⟨found, hfound, h⟩ := h
  cases h
  have hruns : ∀ f ∈ found.flatten, f.RunsOut source := by
    intro f hf
    obtain ⟨fs, hfs, hf⟩ := List.mem_flatten.mp hf
    obtain ⟨rule, -, hrule⟩ := exists_of_mem_mapM hfound hfs
    obtain ⟨m, -, hm⟩ := exists_of_mem_mapM hrule hf
    exact Braces.runsOut_definitionAt? hm
  exact ⟨fun f hf hcounted h hh => (hruns f hf).le_endLine hcounted hh, Finding.countP_of_runsOut hruns⟩

theorem counts_cFamily {source : Source} {findings : List Finding} (h : CFamily.findings? source = some findings) :
    Counts source .cFamily findings := by
  unfold CFamily.findings? at h
  simp only [Option.bind_eq_bind, Option.bind_eq_some_iff] at h
  obtain ⟨functions, hfunctions, records, hrecords, typedefs, htypedefs, h⟩ := h
  cases h
  have hfunction : ∀ f ∈ functions, f.RunsOut source := by
    intro f hf
    obtain ⟨m, -, hm⟩ := exists_of_mem_mapM hfunctions hf
    exact CFamily.runsOut_functionAt? hm
  have hrecord : ∀ f ∈ records, f.RunsOut source := by
    intro f hf
    obtain ⟨m, -, hm⟩ := exists_of_mem_mapM hrecords hf
    exact CFamily.runsOut_recordAt? hm
  refine ⟨fun f hf hcounted h hh => ?_, ?_⟩
  · rcases List.mem_append.mp hf with hf | hf
    · rcases List.mem_append.mp hf with hf | hf
      · exact (hfunction f hf).le_endLine hcounted hh
      · exact (hrecord f hf).le_endLine hcounted hh
    · obtain ⟨m, -, hm⟩ := exists_of_mem_mapM htypedefs hf
      cases ((CFamily.unterminated_typedefAt? hm).2 hcounted).symm.trans hh
  · rw [List.countP_append, List.countP_append, Finding.countP_of_runsOut hfunction,
      Finding.countP_of_runsOut hrecord, Nat.zero_add, namelessBlocks]
    exact countP_of_mapM htypedefs fun m _ f hf => (CFamily.unterminated_typedefAt? hf).1

/-- The rules for Python count no definition at all. -/
theorem header_of_counted_python {source : Source} {findings : List Finding}
    (h : Python.findings? source = some findings) :
    (∀ f ∈ findings, f.unterminated = true → f.header = none) ∧
      (findings.countP fun f => f.unterminated && f.header.isNone) = namelessBlocks source .python := by
  unfold Python.findings? at h
  simp only [Option.bind_eq_bind, Option.bind_eq_some_iff] at h
  obtain ⟨functions, hfunctions, classes, hclasses, h⟩ := h
  cases h
  have hfunction : ∀ slot ∈ [2, 3, 4, 5], Python.functionHeader.records slot = true := by decide
  have hclass : ∀ slot ∈ [2, 3, 4, 5], Python.classHeader.records slot = true := by decide
  constructor
  · intro f hf hcounted
    rcases List.mem_append.mp hf with hf | hf
    · obtain ⟨m, hm, hblock⟩ := exists_of_mem_mapM hfunctions hf
      exact (Python.unterminated_blockAt? hm hfunction hblock).2 hcounted
    · obtain ⟨m, hm, hblock⟩ := exists_of_mem_mapM hclasses hf
      exact (Python.unterminated_blockAt? hm hclass hblock).2 hcounted
  · rw [List.countP_append, namelessBlocks, List.countP_append,
      countP_of_mapM hfunctions fun m hm f hf => (Python.unterminated_blockAt? hm hfunction hf).1,
      countP_of_mapM hclasses fun m hm f hf => (Python.unterminated_blockAt? hm hclass hf).1]

theorem counts_findings? {family : RuleFamily} {source : Source} {findings : List Finding}
    (h : findings? family source = some findings) : Counts source family findings := by
  cases family with
  | generic => exact counts_generic h
  | cFamily => exact counts_cFamily h
  | python =>
    obtain ⟨hheader, hnameless⟩ := header_of_counted_python h
    exact ⟨fun f hf hcounted h hh => (by cases (hheader f hf hcounted).symm.trans hh), hnameless⟩

end Extraction

/-- Whether the finding is a definition that ends on the last line, and not because its block never closes. -/
def Finding.closesLast (source : Source) (f : Finding) : Bool :=
  !f.unterminated && f.header.any fun h => h.endLine == source.lineCount

namespace Extraction

/-- The symbols that end with the file are those of kept definitions that are counted, and of kept definitions that
end there on their own. -/
theorem countP_endLine {family : RuleFamily} {source : Source} {findings : List Finding} {symbols : List Symbol}
    (hplaces : ∀ h ∈ findings.filterMap Finding.header, source.Places family h)
    (hcounts : ∀ f ∈ findings, f.unterminated = true → ∀ h, f.header = some h → source.lineCount ≤ h.endLine)
    (hyields : List.Forall₂ (Finding.Yields source) findings symbols) :
    symbols.countP (fun s => s.endLine == source.lineCount)
      = findings.countP Finding.unterminated + findings.countP (Finding.closesLast source) := by
  induction hyields with
  | nil => rfl
  | @cons f s findings symbols hfs _ ih =>
    obtain ⟨h, hh, hs⟩ := hfs
    rw [List.filterMap_cons_some hh] at hplaces
    have hplace := hplaces h List.mem_cons_self
    obtain ⟨-, -, -, hend⟩ := hplace.symbol_eq hs
    have ih := ih (fun h' hh' => hplaces h' (List.mem_cons_of_mem h hh'))
      (fun f' hf' => hcounts f' (List.mem_cons_of_mem f hf'))
    rw [List.countP_cons, List.countP_cons, List.countP_cons, ih, hend, Finding.closesLast, hh, Option.any_some]
    cases hcounted : f.unterminated with
    | false =>
      simp only [Bool.not_false, Bool.true_and, Bool.false_eq_true, if_false]
      omega
    | true =>
      have hlast : h.endLine = source.lineCount :=
        Nat.le_antisymm hplace.endLine_le_lineCount (hcounts f List.mem_cons_self hcounted h hh)
      simp only [hlast, beq_self_eq_true, Bool.not_true, Bool.false_and, Bool.false_eq_true, if_true, if_false]
      omega

/-- **Counted blocks and symbols.** The symbols of an extraction are those of its kept findings, and a kept block
that is counted goes on to the last line. The other counted blocks are lost: in Python these are all of them. So the
count is at most the number of symbols that end with the file exactly if as many definitions as are lost end there on
their own. -/
theorem unterminated_le_ending_iff (family : RuleFamily) (source : Source) :
    ∃ findings e symbols, findings? family source = some findings ∧ ofFamily? family source = some e ∧
      e.symbols.Perm symbols ∧ List.Forall₂ (Finding.Yields source) (Finding.kept source findings) symbols ∧
      (∀ f ∈ Finding.kept source findings, f.unterminated = true →
        ∀ s, f.Yields source s → s.endLine = source.lineCount) ∧
      e.unterminated = (Finding.kept source findings).countP Finding.unterminated
        + lostBlocks family source findings ∧
      (family = .python → e.unterminated = lostBlocks family source findings) ∧
      (e.unterminated ≤ (e.symbols.countP fun s => s.endLine == source.lineCount) ↔
        lostBlocks family source findings ≤ (Finding.kept source findings).countP (Finding.closesLast source)) := by
  obtain ⟨findings, e, symbols, hfindings, he, hplaces, hcount, hperm, hyields⟩ := exists_kept family source
  obtain ⟨hlast, hnameless⟩ := counts_findings? hfindings
  have hkept : Finding.kept source findings ⊆ findings := filterAfter_subset [] findings
  have hplaces' : ∀ h ∈ (Finding.kept source findings).filterMap Finding.header, source.Places family h := by
    intro h hh
    obtain ⟨f, hf, hheader⟩ := List.mem_filterMap.mp hh
    exact hplaces h (List.mem_filterMap.mpr ⟨f, hkept hf, hheader⟩)
  have hending := countP_endLine hplaces' (fun f hf => hlast f (hkept hf)) hyields
  have hbalance : e.unterminated = (Finding.kept source findings).countP Finding.unterminated
      + lostBlocks family source findings := by
    rw [hcount, Finding.countP_eq source, hnameless, lostBlocks]
    omega
  refine ⟨findings, e, symbols, hfindings, he, hperm, hyields, ?_, hbalance, ?_, ?_⟩
  · rintro f hf hcounted s ⟨h, hh, hs⟩
    have hplace := hplaces h (List.mem_filterMap.mpr ⟨f, hkept hf, hh⟩)
    rw [(hplace.symbol_eq hs).2.2.2]
    exact Nat.le_antisymm hplace.endLine_le_lineCount (hlast f (hkept hf) hcounted h hh)
  · rintro rfl
    have hnone : (Finding.kept source findings).countP Finding.unterminated = 0 := by
      rw [List.countP_eq_zero]
      intro f hf hcounted
      -- a kept finding has a header
      obtain ⟨left, right, -, hheader⟩ := (mem_filterAfter findings).mp hf
      rw [(header_of_counted_python hfindings).1 f (hkept hf) hcounted] at hheader
      cases hheader
    omega
  · rw [hperm.countP_eq, hending]
    omega

/-- A record and a function in it, both without an end. -/
def openRecord : Source :=
  Source.ofText "a.cpp" .cpp "struct s \x7b\n int f() \x7b\n".toList

/-- The symbols of that source. -/
def openSymbols : List Symbol :=
  [⟨"s", .structOrClass, "a.cpp", 1, 2, "struct s", "struct s \x7b\n int f() \x7b"⟩,
    ⟨"f", .function, "a.cpp", 2, 2, "int f()", " int f() \x7b"⟩]

/-- A header whose parenthesis never closes. -/
def openParameters : Source :=
  Source.ofText "a.py" .python "def f(\n".toList

/-- The blocks of the record and of the function are counted, and both symbols end with the file. Of the open header
only a lost block is left. -/
theorem openRecord_recovered :
    ofFamily? .cFamily openRecord = some ⟨openSymbols, [], 2⟩ ∧
      (2 ≤ openSymbols.countP fun s => s.endLine == openRecord.lineCount) ∧
      ∃ findings, findings? .python openParameters = some findings ∧ findings = [⟨none, true⟩] ∧
        1 = lostBlocks .python openParameters findings := by
  have hread : ofFamily? .cFamily openRecord = some ⟨openSymbols, [], 2⟩ := by decide +kernel
  have hlost : (findings? .cFamily openRecord).map (lostBlocks .cFamily openRecord) = some 0 := by decide +kernel
  have hread' : ofFamily? .python openParameters = some ⟨[], [], 1⟩ := by decide +kernel
  have hfound : findings? .python openParameters = some [⟨none, true⟩] := by decide +kernel
  obtain ⟨findings, e, symbols, hfindings, he, -, -, -, -, -, hiff⟩ := unterminated_le_ending_iff .cFamily openRecord
  rw [hfindings, Option.map_some, Option.some.injEq] at hlost
  rw [hlost] at hiff
  cases he.symm.trans hread
  obtain ⟨findings', e', -, hfindings', he', -, -, -, -, hpython, -⟩ :=
    unterminated_le_ending_iff .python openParameters
  cases he'.symm.trans hread'
  exact ⟨hread, hiff.mpr (Nat.zero_le _), findings', hfindings', Option.some.inj (hfindings'.symm.trans hfound),
    hpython rfl⟩

/-- A block is counted that no symbol belongs to. -/
theorem openParameters_lost :
    ofFamily? .python openParameters = some ⟨[], [], 1⟩ ∧
      ¬1 ≤ ([] : List Symbol).countP fun s => s.endLine == openParameters.lineCount :=
  ⟨by decide +kernel, by decide⟩

end Extraction

end CodeAtlas
