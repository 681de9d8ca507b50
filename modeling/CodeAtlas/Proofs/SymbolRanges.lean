import CodeAtlas.Proofs.NestedRanges
import CodeAtlas.Proofs.TableIdentity

/-!
# The lines of an extracted symbol

A definition ends at a brace, with its header, behind a name or by its indentation, and each of these ends has its
own way to meet the end of the file. This file shows that none of them leaves the source: a symbol spans lines that
are there, and its body is the text of those lines. Since no two symbols of a source start on one line under one
name, sorting puts them into a strict order.

* `Symbol.CutFrom`: what holds of a symbol that is cut out of a source;
* `Source.Places.endLine_le_lineCount`: a definition ends on a line of its source, in whatever way it ends;
* `Extraction.exists_wellFormed`: what the rules of a family read off a source.
-/

namespace CodeAtlas

/-- A symbol spans lines of a source, and its body is the text of these lines. -/
structure Symbol.CutFrom (s : Symbol) (source : Source) : Prop where
  file : s.file = source.key
  one_le_startLine : 1 ≤ s.startLine
  startLine_le_endLine : s.startLine ≤ s.endLine
  endLine_le_lineCount : s.endLine ≤ source.lineCount
  body : source.lines? s.startLine s.endLine = some s.body.toList

/-! ### Definitions end within their source -/

namespace Source

variable {source : Source} {family : RuleFamily} {h : Header}

theorem one_le_lineAt (source : Source) (offset : Nat) : 1 ≤ source.lineAt offset := by
  rw [lineAt, source.lineStarts_eq, List.countP_cons_of_pos (by simp)]
  exact Nat.le_add_left 1 _

theorem indentedBlockEnd_le_lineCount {headerEnd : Nat} (hheader : headerEnd ≤ source.lineCount) (indent : Nat) :
    source.indentedBlockEnd headerEnd indent ≤ source.lineCount := by
  rcases (source.endsBlock_indentedBlockEnd headerEnd indent).solid with heq | ⟨-, hlt, -⟩
  · rw [heq]
    exact hheader
  · omega

/-- A definition ends on a line of its source. -/
theorem Places.endLine_le_lineCount (hh : source.Places family h) : h.endLine ≤ source.lineCount := by
  cases hh.ends with
  | braced _ hends => exact hends.endLine_le_lineCount
  | indented hends =>
    obtain ⟨hcolon, indent, -, hline⟩ := hends
    rw [hline]
    exact indentedBlockEnd_le_lineCount (lineAt_le_lineCount_of_standsAt hcolon) indent

end Source

/-- The body of a symbol is the text of its lines. -/
theorem Header.lines?_of_symbol? {source : Source} {h : Header} {s : Symbol} (hs : h.symbol? source = some s) :
    source.lines? s.startLine s.endLine = some s.body.toList := by
  simp only [symbol?, Option.bind_eq_bind, Option.bind_eq_some_iff] at hs
  obtain ⟨rest, -, signature, -, body, hbody, hs⟩ := hs
  cases hs
  simpa using hbody

theorem Source.Places.cutFrom {source : Source} {family : RuleFamily} {h : Header} {s : Symbol}
    (hh : source.Places family h) (hs : h.symbol? source = some s) : s.CutFrom source := by
  have hbody := Header.lines?_of_symbol? hs
  obtain ⟨signature, body, heq⟩ := Header.symbol?_eq hh.heads hh.boundary
  cases heq.symm.trans hs
  have hstart := hh.lineAt_start_le
  refine ⟨rfl, source.one_le_lineAt h.start, Nat.le_max_right _ _, ?_, hbody⟩
  exact Nat.max_le.mpr ⟨hh.endLine_le_lineCount, Nat.le_trans hstart hh.endLine_le_lineCount⟩

/-! ### The symbols of an extraction -/

namespace Extraction

/-- The order of the symbols of a source: by first line, then by name. -/
def lineOrder : Symbol → Symbol → Ordering :=
  compareLex (compareOn Symbol.startLine) (compareOn Symbol.name)

instance : Std.TransCmp lineOrder :=
  inferInstanceAs (Std.TransCmp (compareLex _ _))

theorem lineOrder_eq (a b : Symbol) :
    lineOrder a b = (compare a.startLine b.startLine).then (compare a.name b.name) :=
  rfl

theorem lineOrder_eq_eq_iff (a b : Symbol) :
    lineOrder a b = .eq ↔ a.startLine = b.startLine ∧ a.name = b.name := by
  rw [lineOrder_eq, Ordering.then_eq_eq, Nat.compare_eq_eq, Std.compare_eq_iff_eq]

theorem lineOrder_eq_lt_iff (a b : Symbol) : lineOrder a b = .lt ↔ a.PrecedesInFile b := by
  rw [lineOrder_eq, Ordering.then_eq_lt, compare_string_eq_lt, Nat.compare_eq_lt, Nat.compare_eq_eq]
  rfl

/-- Within one file, the order of a table is that of the lines. -/
theorem inOrder_iff (a b : Symbol) : inOrder a b = true ↔ (lineOrder a b).isLE = true := by
  have htable := SymbolTable.inOrder_iff { a with file := "" } { b with file := "" }
  rw [SymbolTable.keyOrder_eq, SymbolTable.inOrder] at htable
  simpa [inOrder, lineOrder_eq] using htable

/-- A pushed symbol starts on another line, or has another name, than all that are there. -/
theorem push_apart {e : Extraction} (he : e.symbols.Pairwise fun a b => lineOrder a b ≠ .eq) (s : Symbol) :
    (e.push s).symbols.Pairwise fun a b => lineOrder a b ≠ .eq := by
  rw [push]
  split
  · exact he
  · rename_i hnone
    refine List.pairwise_append.mpr ⟨he, List.pairwise_singleton _ _, ?_⟩
    intro t ht u hu heq
    rw [List.mem_singleton.mp hu, lineOrder_eq_eq_iff] at heq
    exact hnone (List.any_eq_true.mpr ⟨t, ht, by simp [heq.1, heq.2]⟩)

theorem foldl_push_apart (symbols : List Symbol) :
    ∀ {e : Extraction}, e.symbols.Pairwise (fun a b => lineOrder a b ≠ .eq) →
      (symbols.foldl push e).symbols.Pairwise fun a b => lineOrder a b ≠ .eq := by
  induction symbols with
  | nil => intro e he; exact he
  | cons s rest ih =>
    intro e he
    exact ih (push_apart he s)

/-- **What the rules of a family read off a source**: symbols that are cut out of it, in the order of their lines and
names. -/
theorem exists_wellFormed (family : RuleFamily) (source : Source) :
    ∃ e, ofFamily? family source = some e ∧ (∀ s ∈ e.symbols, s.CutFrom source) ∧
      e.symbols.Pairwise Symbol.PrecedesInFile := by
  obtain ⟨findings, symbols, includes, -, hplaces, hsymbols, he⟩ := exists_steps family source
  refine ⟨_, he, ?_, ?_⟩
  · intro s hs
    rcases mem_foldl_push symbols ((mem_sortBy _).mp hs) with hs | hs
    · cases hs
    · obtain ⟨i, hi, rfl⟩ := List.mem_iff_getElem.mp hs
      have hi' : i < (findings.filterMap Finding.header).length := by rwa [hsymbols.length_eq]
      exact (hplaces _ (List.getElem_mem hi')).cutFrom (hsymbols.get hi' hi)
  · have hapart := foldl_push_apart symbols
      (e := ⟨[], includes, findings.countP Finding.unterminated⟩) List.Pairwise.nil
    exact (sortBy_strict inOrder_iff hapart).imp fun {a b} hab => (lineOrder_eq_lt_iff a b).mp hab

theorem cutFrom_of_mem {source : Source} {s : Symbol} (hs : s ∈ (ofSource source).symbols) :
    s.CutFrom source := by
  obtain ⟨e, he, hcut, -⟩ := exists_wellFormed source.language.family source
  rw [ofSource, ofSource?, he] at hs
  exact hcut s hs

theorem ofSource_pairwise (source : Source) : (ofSource source).symbols.Pairwise Symbol.PrecedesInFile := by
  obtain ⟨e, he, -, hordered⟩ := exists_wellFormed source.language.family source
  rw [ofSource, ofSource?, he]
  exact hordered

end Extraction

/-- Symbols that ascend within a file have different identities. -/
theorem Symbol.nodup_ids {symbols : List Symbol} (h : symbols.Pairwise PrecedesInFile) :
    (symbols.map Symbol.id).Nodup := by
  refine List.pairwise_map.mpr (h.imp ?_)
  intro a b hab hid
  obtain ⟨hname, -, hline⟩ : a.name = b.name ∧ a.file = b.file ∧ a.startLine = b.startLine := by
    simpa [Symbol.id] using hid
  rcases hab with hlt | ⟨-, hlt⟩
  · omega
  · rw [hname] at hlt
    exact String.lt_irrefl _ hlt

end CodeAtlas
