import CodeAtlas.Command.Run
import CodeAtlas.Query.Code
import CodeAtlas.Proofs.ExtractionSafety
import CodeAtlas.Proofs.SameAnswers
import CodeAtlas.Proofs.SymbolRanges
import Mathlib.Data.List.Nodup

/-!
# Tables of sources under keys of their own

If no two sources have one key, no two of them can claim a symbol, and nothing is lost when they are merged: the
table holds the symbols of all extractions, each beside the source that it was cut out of. The sources are read in
any order, and this file shows that the order leaves no trace.

* `foldl_insert_perm`, `getElem?_foldl_insert`: entries under keys of their own, inserted in any order;
* `SymbolTable.mem_ofSources_iff`, `SymbolTable.source?_ofSources`: what such a table holds;
* `extracted_symbols_wellFormed`: symbols span lines of their source, and a table gives back their text;
* `merging_ignores_order`: the table of some sources does not depend on their order.
-/

namespace CodeAtlas

/-! ### Entries under keys of their own -/

section Dictionaries

variable {α β : Type} (key : α → String) (value : α → β)

/-- Entries under keys of their own can be inserted in any order. -/
theorem foldl_insert_perm {l l' : List α} (hkeys : (l.map key).Nodup) (h : l.Perm l') (d : Dict β) :
    l.foldl (fun d a => d.insert (key a) (value a)) d
      = l'.foldl (fun d a => d.insert (key a) (value a)) d := by
  apply h.foldl_eq'
  intro a ha b hb d
  by_cases hab : key a = key b
  · rw [List.inj_on_of_nodup_map hkeys ha hb hab]
  · apply Std.ExtTreeMap.ext_getElem?
    intro k
    simp only [Std.ExtTreeMap.getElem?_insert, Std.compare_eq_iff_eq]
    by_cases hb : key b = k
    · rw [if_pos hb, if_neg (fun ha => hab (ha.trans hb.symm)), if_pos hb]
    · rw [if_neg hb, if_neg hb]

/-- An entry under a key of its own is found again. -/
theorem getElem?_foldl_insert {l : List α} (hkeys : (l.map key).Nodup) {a : α} (ha : a ∈ l) (d : Dict β) :
    (l.foldl (fun d a => d.insert (key a) (value a)) d)[key a]? = some (value a) := by
  obtain ⟨s, t, rfl⟩ := List.append_of_mem ha
  -- the entry could as well have been inserted last
  have hlast : (s ++ a :: t).Perm (s ++ t ++ [a]) := by
    rw [List.append_assoc]
    exact (List.perm_append_singleton a t).symm.append_left s
  rw [foldl_insert_perm key value hkeys hlast, List.foldl_append]
  exact Std.ExtTreeMap.getElem?_insert_self

/-- The keys are those that were there and those of the entries. -/
theorem mem_foldl_insert {k : String} (l : List α) :
    ∀ d : Dict β, k ∈ l.foldl (fun d a => d.insert (key a) (value a)) d ↔ k ∈ d ∨ k ∈ l.map key := by
  induction l with
  | nil => intro d; simp
  | cons a rest ih =>
    intro d
    rw [List.foldl_cons, ih, Std.ExtTreeMap.mem_insert, Std.compare_eq_iff_eq, List.map_cons, List.mem_cons,
      ← or_assoc, or_comm (a := key a = k), eq_comm]

end Dictionaries

/-- Two strictly ascending lists with the same symbols are the same list. -/
theorem eq_of_keyOrder_pairwise {l l' : List Symbol} (hl : l.Pairwise fun a b => SymbolTable.keyOrder a b = .lt)
    (hl' : l'.Pairwise fun a b => SymbolTable.keyOrder a b = .lt) (h : ∀ s, s ∈ l ↔ s ∈ l') : l = l' := by
  have hnodup : ∀ {l : List Symbol}, l.Pairwise (fun a b => SymbolTable.keyOrder a b = .lt) → l.Nodup := by
    intro l hl
    refine hl.imp ?_
    intro a b hab heq
    rw [heq, (SymbolTable.keyOrder_eq_iff b b).mpr rfl] at hab
    cases hab
  have hperm : l.Perm l' := (List.perm_ext_iff_of_nodup (hnodup hl) (hnodup hl')).mpr h
  refine hperm.eq_of_pairwise ?_ hl hl'
  intro a b _ _ hab hba
  rw [SymbolTable.keyOrder_swap, hab] at hba
  cases hba

/-! ### What the table holds -/

namespace SymbolTable

theorem ofSources_symbols_flatMap (sources : List Source) :
    (sources.map Fragment.ofSource).flatMap Fragment.symbols
      = sources.flatMap fun source => (Extraction.ofSource source).symbols := by
  rw [List.flatMap_map]
  rfl

/-- The table of sources under keys of their own holds the symbols of all of them, and no others. -/
theorem mem_ofSources_iff {sources : List Source} (hkeys : (sources.map Source.key).Nodup) {s : Symbol} :
    s ∈ (ofSources sources).symbols ↔ ∃ source ∈ sources, s ∈ (Extraction.ofSource source).symbols := by
  have hfound : ∀ {t : Symbol}, t ∈ (ofSources sources).symbols →
      ∃ source ∈ sources, t ∈ (Extraction.ofSource source).symbols := by
    intro t ht
    have hmem := List.mem_of_find?_eq_some (find?_flatMap_eq_some_iff.mpr ht)
    rw [ofSources_symbols_flatMap] at hmem
    exact List.mem_flatMap.mp hmem
  constructor
  · exact hfound
  · intro h
    obtain ⟨source, hsource, hs⟩ := h
    have hflat : s ∈ (sources.map Fragment.ofSource).flatMap Fragment.symbols := by
      rw [ofSources_symbols_flatMap]
      exact List.mem_flatMap.mpr ⟨source, hsource, hs⟩
    obtain ⟨t, ht, hid⟩ := exists_mem_ofFragments hflat
    obtain ⟨source', hsource', ht'⟩ := hfound ht
    -- the identity names the key, so the two symbols come from one source
    have hkey : source'.key = source.key := by
      rw [← Extraction.file_eq ht', ← Extraction.file_eq hs]
      exact congrArg SymbolId.file hid
    obtain rfl := List.inj_on_of_nodup_map hkeys hsource' hsource hkey
    have hids := Symbol.nodup_ids (Extraction.ofSource_pairwise source')
    rw [← List.inj_on_of_nodup_map hids ht' hs hid]
    exact ht

theorem sources_ofSources (sources : List Source) :
    (ofSources sources).sources = sources.foldl (fun d source => d.insert source.key source) (∅ : Dict Source) := by
  show (sources.map Fragment.ofSource).foldl
      (fun (d : Dict Source) f => d.insert f.source.key f.source) ∅ = _
  rw [List.foldl_map]
  rfl

theorem includes_ofSources (sources : List Source) :
    (ofSources sources).includes
      = sources.foldl (fun d source => d.insert source.key (Extraction.ofSource source).includes)
          (∅ : Dict (List String)) := by
  show (sources.map Fragment.ofSource).foldl
      (fun (d : Dict (List String)) f => d.insert f.source.key f.includes) ∅ = _
  rw [List.foldl_map]
  rfl

/-- A source under a key of its own is stored there. -/
theorem source?_ofSources {sources : List Source} (hkeys : (sources.map Source.key).Nodup) {source : Source}
    (hsource : source ∈ sources) : (ofSources sources).source? source.key = some source := by
  rw [source?, sources_ofSources]
  exact getElem?_foldl_insert Source.key (fun source => source) hkeys hsource ∅

/-- A symbol of the table has its source there. -/
theorem exists_source_of_mem {sources : List Source} (hkeys : (sources.map Source.key).Nodup) {s : Symbol}
    (hs : s ∈ (ofSources sources).symbols) :
    ∃ source ∈ sources, s.CutFrom source ∧ (ofSources sources).source? s.file = some source := by
  obtain ⟨source, hsource, hmem⟩ := (mem_ofSources_iff hkeys).mp hs
  have hcut := Extraction.cutFrom_of_mem hmem
  refine ⟨source, hsource, hcut, ?_⟩
  rw [hcut.file]
  exact source?_ofSources hkeys hsource

/-- The text of a symbol in the table is the body that was cut out. -/
theorem textOf_ofSources {sources : List Source} (hkeys : (sources.map Source.key).Nodup) {s : Symbol}
    (hs : s ∈ (ofSources sources).symbols) : (ofSources sources).textOf s = s.body.toList := by
  obtain ⟨source, -, hcut, hstored⟩ := exists_source_of_mem hkeys hs
  rw [textOf, hstored]
  show (source.lines? s.startLine s.endLine).getD [] = s.body.toList
  rw [hcut.body, Option.getD_some]

end SymbolTable

/-- **Extracted symbols are well formed.** The rules of any family read symbols off any source which carry its key,
span lines that it has and hold the text of these lines; they ascend strictly by first line and name, so each has an
identity of its own. A table of sources under keys of their own holds just the symbols that are read off them, and
for each of them it gives back the body and the range. -/
theorem extracted_symbols_wellFormed (family : RuleFamily) (source : Source) (sources : List Source)
    (limits : Limits) :
    (∃ e, Extraction.ofFamily? family source = some e ∧ (∀ s ∈ e.symbols, s.CutFrom source) ∧
      e.symbols.Pairwise Symbol.PrecedesInFile ∧ (e.symbols.map Symbol.id).Nodup) ∧
    ((sources.map Source.key).Nodup →
      (∀ s, s ∈ (SymbolTable.ofSources sources).symbols
        ↔ ∃ stored ∈ sources, s ∈ (Extraction.ofSource stored).symbols) ∧
      ∀ s ∈ (SymbolTable.ofSources sources).symbols,
        (CallGraph.ofSources sources limits).extractCode? s.id
          = some ⟨s.id, s.kind, s.startLine, s.endLine, s.body⟩) := by
  constructor
  · obtain ⟨e, he, hcut, hordered⟩ := Extraction.exists_wellFormed family source
    exact ⟨e, he, hcut, hordered, Symbol.nodup_ids hordered⟩
  · intro hkeys
    refine ⟨fun s => SymbolTable.mem_ofSources_iff hkeys, ?_⟩
    intro s hs
    have hget : (SymbolTable.ofSources sources).get? s.id = some s :=
      SymbolTable.get?_eq_some_iff.mpr ⟨hs, rfl⟩
    show ((SymbolTable.ofSources sources).get? s.id).map (CallGraph.ofSources sources limits).codeExtract = _
    rw [hget, Option.map_some]
    show some (CodeExtract.mk s.id s.kind s.startLine s.endLine
      (String.ofList ((SymbolTable.ofSources sources).textOf s))) = _
    rw [SymbolTable.textOf_ofSources hkeys hs, String.ofList_toList]

/-- A source whose block is never closed, and whose last line has no line feed. -/
def openBlock : Source :=
  Source.ofText "b.c" .c "\nint g() \x7b\n h();".toList

/-- The symbol of that source, up to the end of the file. -/
def openSymbol : Symbol :=
  ⟨"g", .function, "b.c", 2, 3, "int g()", "int g() \x7b\n h();"⟩

/-- The open block ends with the last line, and the table gives back its text. -/
theorem openBlock_wellFormed :
    openSymbol.CutFrom openBlock ∧ ([openBlock, accented].map Source.key).Nodup ∧
    openSymbol ∈ (SymbolTable.ofSources [openBlock, accented]).symbols ∧
    (CallGraph.ofSources [openBlock, accented] {}).extractCode? openSymbol.id
      = some ⟨openSymbol.id, .function, 2, 3, "int g() \x7b\n h();"⟩ := by
  have hsymbols : (Extraction.ofSource openBlock).symbols = [openSymbol] := by decide +kernel
  have hread : (Extraction.ofFamily? .cFamily openBlock).map Extraction.symbols = some [openSymbol] := by
    decide +kernel
  have hkeys : ([openBlock, accented].map Source.key).Nodup := by decide
  obtain ⟨⟨e, he, hcut, -⟩, htable⟩ :=
    extracted_symbols_wellFormed .cFamily openBlock [openBlock, accented] {}
  obtain ⟨hmem, hcode⟩ := htable hkeys
  have hs : openSymbol ∈ (SymbolTable.ofSources [openBlock, accented]).symbols :=
    (hmem openSymbol).mpr ⟨openBlock, by simp, by rw [hsymbols]; simp⟩
  refine ⟨hcut openSymbol ?_, hkeys, hs, hcode openSymbol hs⟩
  rw [he, Option.map_some, Option.some.injEq] at hread
  rw [hread]
  exact List.mem_singleton_self openSymbol

/-! ### The order of the sources -/

namespace SymbolTable

/-- The indexes of a table are read off its symbols, so the rest determines it. -/
theorem eq_of_parts {t t' : SymbolTable} (hsymbols : t.symbols = t'.symbols) (hincludes : t.includes = t'.includes)
    (hsources : t.sources = t'.sources) : t = t' := by
  have hnames : t.byName = t'.byName := by rw [t.byName_eq, t'.byName_eq, hsymbols]
  have hfiles : t.byFile = t'.byFile := by rw [t.byFile_eq, t'.byFile_eq, hsymbols]
  cases t
  cases t'
  simp_all

/-- **The table of some sources under keys of their own does not depend on their order.** -/
theorem ofSources_perm {as bs : List Source} (hkeys : (as.map Source.key).Nodup) (h : as.Perm bs) :
    ofSources as = ofSources bs := by
  have hkeys' : (bs.map Source.key).Nodup := (h.map Source.key).nodup_iff.mp hkeys
  refine eq_of_parts ?_ ?_ ?_
  · apply eq_of_keyOrder_pairwise (ofFragments_pairwise _) (ofFragments_pairwise _)
    intro s
    show s ∈ (ofSources as).symbols ↔ s ∈ (ofSources bs).symbols
    rw [mem_ofSources_iff hkeys, mem_ofSources_iff hkeys']
    simp only [h.mem_iff]
  · rw [includes_ofSources, includes_ofSources]
    exact foldl_insert_perm Source.key _ hkeys h ∅
  · rw [sources_ofSources, sources_ofSources]
    exact foldl_insert_perm Source.key _ hkeys h ∅

end SymbolTable

/-- **Merging ignores the order.** Sources under keys of their own have the same table in every order: the same
symbols in one order, the same places of names and files, the same includes and sources and the same fingerprint.
So their call graphs are the same under all limits, which all queries are asked of, and every command has the same
answer, as JSON and as a table or a diagram. -/
theorem merging_ignores_order {as bs : List Source} (hkeys : (as.map Source.key).Nodup) (h : as.Perm bs) :
    (SymbolTable.ofSources as).symbols = (SymbolTable.ofSources bs).symbols ∧
    (SymbolTable.ofSources as).byName = (SymbolTable.ofSources bs).byName ∧
    (SymbolTable.ofSources as).byFile = (SymbolTable.ofSources bs).byFile ∧
    (SymbolTable.ofSources as).includes = (SymbolTable.ofSources bs).includes ∧
    (SymbolTable.ofSources as).sources = (SymbolTable.ofSources bs).sources ∧
    (SymbolTable.ofSources as).fingerprint = (SymbolTable.ofSources bs).fingerprint ∧
    (∀ limits, CallGraph.ofSources as limits = CallGraph.ofSources bs limits) ∧
    ∀ (command : Command) (json : Bool) (manifest : Manifest),
      command.answer json ⟨SymbolTable.ofSources as, manifest⟩
        = command.answer json ⟨SymbolTable.ofSources bs, manifest⟩ := by
  have htable := SymbolTable.ofSources_perm hkeys h
  rw [htable]
  refine ⟨rfl, rfl, rfl, rfl, rfl, rfl, ?_, fun command json manifest => rfl⟩
  intro limits
  rw [CallGraph.ofSources, CallGraph.ofSources, htable]

/-- Two sources with a function each, in both orders. -/
theorem openBlock_accented_ignores_order :
    ([openBlock, accented].map Source.key).Nodup ∧ [openBlock, accented].Perm [accented, openBlock] ∧
    (SymbolTable.ofSources [openBlock, accented]).symbols
      = (SymbolTable.ofSources [accented, openBlock]).symbols ∧
    (SymbolTable.ofSources [openBlock, accented]).fingerprint
      = (SymbolTable.ofSources [accented, openBlock]).fingerprint := by
  have hkeys : ([openBlock, accented].map Source.key).Nodup := by decide
  have hperm : [openBlock, accented].Perm [accented, openBlock] := List.Perm.swap _ _ _
  obtain ⟨hsymbols, -, -, -, -, hfingerprint, -⟩ := merging_ignores_order hkeys hperm
  exact ⟨hkeys, hperm, hsymbols, hfingerprint⟩

end CodeAtlas
