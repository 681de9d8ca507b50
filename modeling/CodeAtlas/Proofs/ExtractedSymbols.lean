import CodeAtlas.SymbolTable
import CodeAtlas.Proofs.HeaderFindings
import CodeAtlas.Proofs.TableOrder

/-!
# The symbols of an extraction

Every source has an extraction, and each of its symbols is that of a header which the rules have found.

* `Extraction.exists_ofFamily?`: the rules of a family read an extraction off every source;
* `Extraction.exists_header`: every symbol that they read is that of a header which they find;
* `Extraction.Heads`, `Extraction.exists_heads`: every symbol of a source has a header;
* `SymbolTable.exists_source?`: every symbol of a table has its source there.
-/

namespace CodeAtlas

theorem forall₂_of_mapM {α β : Type} {f : α → Option β} {xs : List α} :
    ∀ {ys : List β}, xs.mapM f = some ys → List.Forall₂ (fun x y => f x = some y) xs ys := by
  induction xs with
  | nil =>
    intro ys h
    cases h
    exact .nil
  | cons x xs ih =>
    intro ys h
    rw [List.mapM_cons, Option.bind_eq_bind, Option.bind_eq_some_iff] at h
    obtain ⟨y, hy, h⟩ := h
    rw [Option.bind_eq_bind, Option.bind_eq_some_iff] at h
    obtain ⟨zs, hzs, h⟩ := h
    cases h
    exact .cons hy (ih hzs)

namespace Extraction

theorem mem_foldl_push {s : Symbol} (symbols : List Symbol) :
    ∀ {e : Extraction}, s ∈ (symbols.foldl push e).symbols → s ∈ e.symbols ∨ s ∈ symbols := by
  induction symbols with
  | nil => intro e hs; exact .inl hs
  | cons t rest ih =>
    intro e hs
    rcases ih hs with hs | hs
    · rw [push] at hs
      split_ifs at hs
      · exact .inl hs
      · rcases List.mem_append.mp hs with hs | hs
        · exact .inl hs
        · rw [List.mem_singleton] at hs
          exact .inr (hs ▸ List.mem_cons_self)
    · exact .inr (List.mem_cons_of_mem t hs)

/-- The steps of an extraction all have a result: headers are found, each of them has a symbol, and the extraction
holds those symbols. -/
theorem exists_steps (family : RuleFamily) (source : Source) :
    ∃ findings symbols includes, findings? family source = some findings ∧
      (∀ h ∈ findings.filterMap Finding.header, source.Places family h) ∧
      List.Forall₂ (fun h s => h.symbol? source = some s) (findings.filterMap Finding.header) symbols ∧
      ofFamily? family source
        = some (symbols.foldl push ⟨[], includes, findings.countP Finding.unterminated⟩).finish := by
  obtain ⟨findings, hfindings, hall⟩ := exists_findings? family source
  obtain ⟨includes, hincludes⟩ := exists_includes? family source
  have hplaces : ∀ h ∈ findings.filterMap Finding.header, source.Places family h := by
    intro h hh
    obtain ⟨f, hf, hfound⟩ := List.mem_filterMap.mp hh
    exact hall f hf h hfound
  obtain ⟨symbols, hsymbols⟩ : ∃ symbols,
      (findings.filterMap Finding.header).mapM (Header.symbol? source) = some symbols := by
    apply exists_mapM_of_exists
    intro h hh
    obtain ⟨signature, body, hsymbol⟩ := Header.symbol?_eq (hplaces h hh).heads (hplaces h hh).boundary
    exact ⟨_, hsymbol⟩
  refine ⟨findings, symbols, includes.map String.ofList, hfindings, hplaces, forall₂_of_mapM hsymbols, ?_⟩
  rw [ofFamily?, hfindings, hincludes]
  simp only [ofFindings?, hsymbols, Option.bind_eq_bind, Option.bind_some]
  rfl

/-- **Extraction succeeds.** The rules of a family read an extraction off every source, also off one that is
written by other rules. -/
theorem exists_ofFamily? (family : RuleFamily) (source : Source) :
    ∃ e, ofFamily? family source = some e := by
  obtain ⟨findings, symbols, includes, -, -, -, he⟩ := exists_steps family source
  exact ⟨_, he⟩

/-- Every symbol that the rules of a family read off a source is that of a header which they find. -/
theorem exists_header {family : RuleFamily} {source : Source} {e : Extraction} {s : Symbol}
    (he : ofFamily? family source = some e) (hs : s ∈ e.symbols) :
    ∃ findings h, findings? family source = some findings ∧ h ∈ findings.filterMap Finding.header ∧
      source.Places family h ∧ h.symbol? source = some s := by
  obtain ⟨findings, symbols, includes, hfindings, hplaces, hsymbols, he'⟩ := exists_steps family source
  cases he.symm.trans he'
  have hmem : s ∈ symbols := by
    rcases mem_foldl_push symbols ((mem_sortBy _).mp hs) with hs | hs
    · cases hs
    · exact hs
  obtain ⟨i, hi, rfl⟩ := List.mem_iff_getElem.mp hmem
  have hi' : i < (findings.filterMap Finding.header).length := by rwa [hsymbols.length_eq]
  exact ⟨findings, _, hfindings, List.getElem_mem hi', hplaces _ (List.getElem_mem hi'), hsymbols.get hi' hi⟩

/-- The rules of its language find the header in a source, and the symbol is that of the header. -/
structure Heads (source : Source) (h : Header) (s : Symbol) : Prop where
  found : ∃ findings, findings? source.language.family source = some findings ∧
    h ∈ findings.filterMap Finding.header
  symbol : h.symbol? source = some s

theorem Heads.places {source : Source} {h : Header} {s : Symbol} (hs : Heads source h s) :
    source.Places source.language.family h := by
  obtain ⟨findings, -, -, hfindings, hplaces, -, -⟩ := exists_steps source.language.family source
  obtain ⟨findings', hfindings', hmem⟩ := hs.found
  cases hfindings.symm.trans hfindings'
  exact hplaces h hmem

/-- Every symbol that is read off a source has a header. -/
theorem exists_heads {source : Source} {s : Symbol} (hs : s ∈ (ofSource source).symbols) :
    ∃ h, Heads source h s := by
  obtain ⟨e, he⟩ := exists_ofFamily? source.language.family source
  rw [ofSource, ofSource?, he, Option.getD_some] at hs
  obtain ⟨findings, h, hfindings, hmem, -, hsymbol⟩ := exists_header he hs
  exact ⟨h, ⟨findings, hfindings, hmem⟩, hsymbol⟩

theorem file_eq {source : Source} {s : Symbol} (hs : s ∈ (ofSource source).symbols) :
    s.file = source.key := by
  obtain ⟨h, hheads⟩ := exists_heads hs
  obtain ⟨signature, body, heq⟩ := Header.symbol?_eq hheads.places.heads hheads.places.boundary
  cases heq.symm.trans hheads.symbol
  rfl

end Extraction

namespace SymbolTable

theorem exists_getElem?_foldl_insert {key : String} (fragments : List Fragment) :
    ∀ {sources : Dict Source},
      (∃ source, sources[key]? = some source) ∨ (∃ f ∈ fragments, f.source.key = key) →
      ∃ source, (fragments.foldl (fun d f => d.insert f.source.key f.source) sources)[key]? = some source := by
  induction fragments with
  | nil =>
    intro sources h
    rcases h with h | ⟨f, hf, -⟩
    · exact h
    · cases hf
  | cons f rest ih =>
    intro sources h
    apply ih
    by_cases hkey : f.source.key = key
    · exact .inl ⟨f.source, by rw [← hkey, Std.ExtTreeMap.getElem?_insert_self]⟩
    · rcases h with ⟨source, hsource⟩ | ⟨f', hf', hkey'⟩
      · refine .inl ⟨source, ?_⟩
        rw [Std.ExtTreeMap.getElem?_insert, if_neg, hsource]
        rw [Std.compare_eq_iff_eq]
        exact hkey
      · rcases List.mem_cons.mp hf' with rfl | hf'
        · exact absurd hkey' hkey
        · exact .inr ⟨f', hf', hkey'⟩

/-- The source that a symbol of the table was found in, or a later one with its key, is stored. -/
theorem exists_source? {sources : List Source} {s : Symbol} (hs : s ∈ (ofSources sources).symbols) :
    ∃ source, (ofSources sources).source? s.file = some source := by
  have hmem := (mem_sortBy _).mp ((eraseRepsBy_sublist _).subset hs)
  obtain ⟨f, hf, hs⟩ := List.mem_flatMap.mp hmem
  obtain ⟨source, hsource, rfl⟩ := List.mem_map.mp hf
  apply exists_getElem?_foldl_insert
  exact .inr ⟨_, hf, (Extraction.file_eq hs).symm⟩

end SymbolTable

end CodeAtlas
