import CodeAtlas.Proofs.MergedSources
import CodeAtlas.Query.ClassOutline
import Mathlib.Data.List.Infix

/-!
# The members of classes

The outline of a class lists the functions whose innermost class it is. For each function that class is looked up
anew, among all classes of the file and with the last of several that start on one line. This file says what the
lookups come to over a whole table of sources:

* `Symbol.Encloses`, `SymbolTable.Innermost`: a class around a symbol, and the one of them that starts last;
* `innermost?_eq_some_iff`: the lookup finds the innermost class;
* `SymbolTable.flatMap_symbolsIn`: file by file, the symbols come in the order of the table;
* `CallGraph.classes_classOutline`: the outlines are those of the classes whose name contains the keyword;
* `CallGraph.classOutline_partitions_functions`: the outlines share the functions out among the classes, the links
  to outer classes make a forest, and a keyword selects outlines without changing them.
-/

namespace CodeAtlas

/-! ### The innermost class -/

/-- A class encloses a symbol that starts in its file, after its first line and not after its last one. -/
structure Symbol.Encloses (c s : Symbol) : Prop where
  kind : c.kind = .structOrClass
  file : c.file = s.file
  starts : c.startLine < s.startLine
  ends : s.startLine ≤ c.endLine

/-- The class of a table around a symbol that starts last; of those that start on one line, the one with the
greatest name. -/
structure SymbolTable.Innermost (table : SymbolTable) (c s : Symbol) : Prop where
  mem : c ∈ table.symbols
  encloses : c.Encloses s
  last : ∀ d ∈ table.symbols, d.Encloses s →
    d.startLine < c.startLine ∨ d.startLine = c.startLine ∧ d.name ≤ c.name

theorem Symbol.PrecedesInFile.asymm {a b : Symbol} (h : a.PrecedesInFile b) : ¬ b.PrecedesInFile a := by
  intro h'
  rcases h with hline | ⟨hline, hname⟩
  · rcases h' with hline' | ⟨hline', -⟩
    · omega
    · omega
  · rcases h' with hline' | ⟨-, hname'⟩
    · omega
    · exact String.lt_asymm hname hname'

/-- The last element of an ascending list is the one that all others come before. -/
theorem getLast?_eq_some_iff_of_pairwise {α : Type} {R : α → α → Prop} (hasymm : ∀ {a b}, R a b → ¬ R b a)
    {list : List α} (hlist : list.Pairwise R) {c : α} :
    list.getLast? = some c ↔ c ∈ list ∧ ∀ d ∈ list, d = c ∨ R d c := by
  have hlast : ∀ {b}, list.getLast? = some b → b ∈ list ∧ ∀ d ∈ list, d = b ∨ R d b := by
    intro b hb
    obtain ⟨front, rfl⟩ := List.getLast?_eq_some_iff.mp hb
    refine ⟨by simp, ?_⟩
    intro d hd
    rcases List.mem_append.mp hd with hd | hd
    · exact .inr ((List.pairwise_append.mp hlist).2.2 d hd b (List.mem_singleton_self b))
    · exact .inl (List.mem_singleton.mp hd)
  constructor
  · exact hlast
  · intro h
    obtain ⟨hc, hbefore⟩ := h
    obtain ⟨b, hb⟩ := Option.isSome_iff_exists.mp (List.getLast?_isSome.mpr (List.ne_nil_of_mem hc))
    obtain ⟨hmem, hall⟩ := hlast hb
    rcases hbefore b hmem with rfl | hbc
    · exact hb
    · rcases hall c hc with rfl | hcb
      · exact hb
      · exact absurd hbc (hasymm hcb)

/-- If the first lines ascend, the search for the class that starts last comes to the last one. -/
theorem foldl_laterStart {classes : List Symbol} (h : classes.Pairwise Symbol.PrecedesInFile) :
    classes.foldl laterStart none = classes.getLast? := by
  induction classes using List.reverseRecOn with
  | nil => rfl
  | append_singleton classes c ih =>
    obtain ⟨hclasses, -, hlast⟩ := List.pairwise_append.mp h
    rw [List.foldl_append, ih hclasses, List.getLast?_concat]
    show laterStart classes.getLast? c = some c
    cases hb : classes.getLast? with
    | none => rfl
    | some b =>
      have hbc := hlast b (List.mem_of_getLast? hb) c (List.mem_singleton_self c)
      have hle : b.startLine ≤ c.startLine := by
        rcases hbc with hline | ⟨hline, -⟩
        · omega
        · omega
      show (if b.startLine ≤ c.startLine then some c else some b) = some c
      rw [if_pos hle]

namespace SymbolTable

variable (table : SymbolTable)

/-! ### The symbols of a file -/

/-- The symbols of a file are those of the table that carry its key, in the order of the table. -/
theorem symbolsIn_eq_filter (file : String) :
    table.symbolsIn file = table.symbols.filter fun s => s.file == file := by
  have hplaces : table.byFile.getD file [] = keyedFrom Symbol.file file 0 table.symbols := by
    rw [table.byFile_eq, indexBy, indexFrom_getD, Std.ExtTreeMap.getD_empty, List.nil_append]
  have hback : ∀ p ∈ (table.symbols.zipIdx 0).filter (fun p => p.1.file == file),
      table.symbols[p.2]? = some p.1 := by
    intro p hp
    exact List.mem_zipIdx_iff_getElem?.mp (List.mem_of_mem_filter hp)
  rw [symbolsIn, hplaces, keyedFrom, List.filterMap_map]
  calc ((table.symbols.zipIdx 0).filter fun p => p.1.file == file).filterMap
          ((fun i => table.symbols[i]?) ∘ Prod.snd)
      = ((table.symbols.zipIdx 0).filter fun p => p.1.file == file).map Prod.fst := by
        rw [← List.filterMap_eq_map]
        exact List.filterMap_congr hback
    _ = ((table.symbols.zipIdx 0).map Prod.fst).filter fun s => s.file == file := by
        rw [List.filter_map]
        rfl
    _ = table.symbols.filter fun s => s.file == file := by
        rw [List.zipIdx_map_fst]

/-- The classes of a file. -/
def classesIn (file : String) : List Symbol :=
  (table.symbolsIn file).filter (·.kind == .structOrClass)

theorem mem_symbolsIn {file : String} {s : Symbol} :
    s ∈ table.symbolsIn file ↔ s ∈ table.symbols ∧ s.file = file := by
  rw [symbolsIn_eq_filter, List.mem_filter, beq_iff_eq]

theorem mem_classesIn {file : String} {c : Symbol} :
    c ∈ table.classesIn file ↔ c ∈ table.symbols ∧ c.file = file ∧ c.kind = .structOrClass := by
  rw [classesIn, List.mem_filter, mem_symbolsIn, beq_iff_eq, and_assoc]

section Fragments

variable {fragments : List Fragment}

theorem symbolsIn_pairwise (file : String) :
    ((ofFragments fragments).symbolsIn file).Pairwise Symbol.PrecedesInFile := by
  have hordered := (ofFragments_pairwise fragments).filter fun s => s.file == file
  rw [← symbolsIn_eq_filter] at hordered
  refine hordered.imp_of_mem ?_
  intro a b ha hb hab
  have hfile : a.file = b.file := ((mem_symbolsIn _).mp ha).2.trans ((mem_symbolsIn _).mp hb).2.symm
  rcases (keyOrder_eq_lt_iff a b).mp hab with hlt | ⟨-, hprecedes⟩
  · rw [hfile] at hlt
    exact absurd hlt (String.lt_irrefl b.file)
  · exact hprecedes

theorem mem_filter_startsInside {s c : Symbol} :
    c ∈ (table.classesIn s.file).filter (fun c => c.id != s.id && s.startsInside c)
      ↔ c ∈ table.symbols ∧ c.Encloses s := by
  rw [List.mem_filter, mem_classesIn]
  simp only [Symbol.startsInside, Bool.and_eq_true, bne_iff_ne, decide_eq_true_eq]
  constructor
  · intro h
    obtain ⟨⟨hmem, hfile, hkind⟩, -, hstarts, hends⟩ := h
    exact ⟨hmem, hkind, hfile, hstarts, hends⟩
  · intro h
    obtain ⟨hmem, hkind, hfile, hstarts, hends⟩ := h
    refine ⟨⟨hmem, hfile, hkind⟩, ?_, hstarts, hends⟩
    intro hid
    have hline : c.startLine = s.startLine := congrArg SymbolId.startLine hid
    omega

theorem enclosing_pairwise (s : Symbol) :
    (((ofFragments fragments).classesIn s.file).filter
      fun c => c.id != s.id && s.startsInside c).Pairwise Symbol.PrecedesInFile :=
  ((symbolsIn_pairwise s.file).filter _).filter _

/-- **The lookup finds the innermost class.** -/
theorem innermost?_eq_some_iff {s c : Symbol} :
    innermost? ((ofFragments fragments).classesIn s.file) s = some c
      ↔ (ofFragments fragments).Innermost c s := by
  rw [innermost?, foldl_laterStart (enclosing_pairwise s),
    getLast?_eq_some_iff_of_pairwise Symbol.PrecedesInFile.asymm (enclosing_pairwise s)]
  simp only [mem_filter_startsInside]
  constructor
  · intro h
    obtain ⟨⟨hmem, hencloses⟩, hbefore⟩ := h
    refine ⟨hmem, hencloses, ?_⟩
    intro d hd hdencloses
    rcases hbefore d ⟨hd, hdencloses⟩ with rfl | hline | ⟨hline, hname⟩
    · exact .inr ⟨rfl, String.le_refl d.name⟩
    · exact .inl hline
    · exact .inr ⟨hline, String.not_lt.mp (String.lt_asymm hname)⟩
  · intro h
    refine ⟨⟨h.mem, h.encloses⟩, ?_⟩
    intro d hd
    obtain ⟨hmem, hencloses⟩ := hd
    rcases h.last d hmem hencloses with hline | ⟨hline, hname⟩
    · exact .inr (.inl hline)
    · by_cases hlt : d.name < c.name
      · exact .inr (.inr ⟨hline, hlt⟩)
      · have hsame : d.name = c.name := String.le_antisymm hname (String.not_lt.mp hlt)
        have hid : d.id = c.id := by
          rw [Symbol.id, Symbol.id, hsame, hline, hencloses.file, h.encloses.file]
        exact .inl (eq_of_id_eq hmem h.mem hid)

/-- A symbol that some class encloses has an innermost class, and no other has one. -/
theorem exists_innermost_iff {s : Symbol} :
    (∃ c, (ofFragments fragments).Innermost c s) ↔ ∃ c ∈ (ofFragments fragments).symbols, c.Encloses s := by
  constructor
  · intro h
    obtain ⟨c, hc⟩ := h
    exact ⟨c, hc.mem, hc.encloses⟩
  · intro h
    obtain ⟨c, hmem, hencloses⟩ := h
    have hne := List.ne_nil_of_mem ((mem_filter_startsInside _).mpr ⟨hmem, hencloses⟩)
    obtain ⟨b, hb⟩ := Option.isSome_iff_exists.mp (List.getLast?_isSome.mpr hne)
    refine ⟨b, innermost?_eq_some_iff.mp ?_⟩
    rw [innermost?, foldl_laterStart (enclosing_pairwise s)]
    exact hb

end Fragments

/-- **File by file, the symbols come in the order of the table.** -/
theorem flatMap_symbolsIn (sources : List Source) :
    (ofSources sources).files.flatMap (ofSources sources).symbolsIn = (ofSources sources).symbols := by
  have hfiles : (ofSources sources).files.Pairwise (· < ·) :=
    Std.ExtTreeMap.ordered_keys.imp fun hab => compare_string_eq_lt.mp hab
  refine eq_of_keyOrder_pairwise ?_ (ofFragments_pairwise _) ?_
  · rw [List.pairwise_flatMap]
    refine ⟨?_, hfiles.imp ?_⟩
    · intro file _
      rw [symbolsIn_eq_filter]
      exact (ofFragments_pairwise _).filter _
    · intro file file' hlt a ha b hb
      refine (keyOrder_eq_lt_iff a b).mpr (.inl ?_)
      rw [((mem_symbolsIn _).mp ha).2, ((mem_symbolsIn _).mp hb).2]
      exact hlt
  · intro s
    rw [List.mem_flatMap]
    constructor
    · intro h
      obtain ⟨file, -, hs⟩ := h
      exact ((mem_symbolsIn _).mp hs).1
    · intro hs
      obtain ⟨source, hsource⟩ := exists_source? hs
      refine ⟨s.file, ?_, (mem_symbolsIn _).mpr ⟨hs, rfl⟩⟩
      rw [files, Std.ExtTreeMap.mem_keys, Std.ExtTreeMap.mem_iff_isSome_getElem?]
      exact Option.isSome_iff_exists.mpr ⟨source, hsource⟩

/-! ### The outlines -/

/-- The outline of a class: the functions of its file whose innermost class it is, and its own innermost class. -/
def outlineOf (c : Symbol) : ClassOutline where
  self := c.id
  methods :=
    ((table.symbolsIn c.file).filter fun f =>
      f.kind == .function && (innermost? (table.classesIn c.file) f).any (·.id == c.id)).map Symbol.id
  outer := (innermost? (table.classesIn c.file) c).map Symbol.id

section Fragments

variable {fragments : List Fragment}

theorem mem_methods_iff {c f : Symbol} (hc : c ∈ (ofFragments fragments).symbols)
    (hf : f ∈ (ofFragments fragments).symbols) (hkind : f.kind = .function) :
    f.id ∈ ((ofFragments fragments).outlineOf c).methods ↔ (ofFragments fragments).Innermost c f := by
  simp only [outlineOf, List.mem_map, List.mem_filter, mem_symbolsIn, Bool.and_eq_true, beq_iff_eq,
    Option.any_eq_true]
  constructor
  · intro h
    obtain ⟨f', ⟨⟨hf', hfile⟩, -, b, hb, hbid⟩, hid⟩ := h
    obtain rfl := eq_of_id_eq hf' hf hid
    rw [← hfile, innermost?_eq_some_iff] at hb
    rwa [← eq_of_id_eq hb.mem hc hbid]
  · intro h
    have hfile : f.file = c.file := h.encloses.file.symm
    refine ⟨f, ⟨⟨hf, hfile⟩, hkind, c, ?_, rfl⟩, rfl⟩
    rw [← hfile]
    exact innermost?_eq_some_iff.mpr h

theorem nodup_methods (c : Symbol) : ((ofFragments fragments).outlineOf c).methods.Nodup :=
  Symbol.nodup_ids ((symbolsIn_pairwise c.file).filter _)

theorem function_of_mem_methods {c : Symbol} {id : SymbolId} (h : id ∈ (table.outlineOf c).methods) :
    ∃ f ∈ table.symbols, f.kind = .function ∧ f.id = id := by
  obtain ⟨f, hf, hid⟩ := List.mem_map.mp h
  obtain ⟨hmem, hkind⟩ := List.mem_filter.mp hf
  rw [Bool.and_eq_true, beq_iff_eq] at hkind
  exact ⟨f, (table.mem_symbolsIn.mp hmem).1, hkind.1, hid⟩

theorem outer_eq_some_iff {c : Symbol} {id : SymbolId} :
    ((ofFragments fragments).outlineOf c).outer = some id
      ↔ ∃ d, (ofFragments fragments).Innermost d c ∧ d.id = id := by
  simp only [outlineOf, Option.map_eq_some_iff, innermost?_eq_some_iff]

end Fragments

/-- What the outlines of a table tell about its classes. -/
structure IsOutlined (outlines : List ClassOutline) : Prop where
  /-- There is one outline for each class. -/
  classes : outlines.map ClassOutline.self = (table.symbols.filter (·.kind == .structOrClass)).map Symbol.id
  /-- The methods of a class are functions, each listed once. -/
  methods : ∀ o ∈ outlines, o.methods.Nodup ∧
    ∀ id ∈ o.methods, ∃ f ∈ table.symbols, f.kind = .function ∧ f.id = id
  /-- A function inside of a class is a method of its innermost class, and of no other. -/
  inside : ∀ f ∈ table.symbols, f.kind = .function → (∃ c ∈ table.symbols, c.Encloses f) →
    ∃ c, table.Innermost c f ∧ (outlines.filter fun o => f.id ∈ o.methods).map ClassOutline.self = [c.id]
  /-- A function outside of all classes is no method. -/
  outside : ∀ f ∈ table.symbols, f.kind = .function → (∀ c ∈ table.symbols, ¬ c.Encloses f) →
    ∀ o ∈ outlines, f.id ∉ o.methods
  /-- The outer class is the innermost one around the class. -/
  outer : ∀ c ∈ table.symbols, ∀ o ∈ outlines, o.self = c.id →
    ∀ id, o.outer = some id ↔ ∃ d, table.Innermost d c ∧ d.id = id
  /-- It has an outline too, stands in the same file and starts on an earlier line. -/
  earlier : ∀ o ∈ outlines, ∀ id, o.outer = some id →
    id ∈ outlines.map ClassOutline.self ∧ id.file = o.self.file ∧ id.startLine < o.self.startLine
  /-- So the way outwards always ends. -/
  forest : WellFounded fun id id' => ∃ o ∈ outlines, o.self = id' ∧ o.outer = some id

section Fragments

variable {fragments : List Fragment}

theorem mem_classes_iff {c : Symbol} :
    c ∈ table.symbols.filter (·.kind == .structOrClass) ↔ c ∈ table.symbols ∧ c.kind = .structOrClass := by
  rw [List.mem_filter, beq_iff_eq]

/-- Exactly one outline lists a function that a class encloses. -/
theorem filter_outlines_eq {c f : Symbol} (hc : (ofFragments fragments).Innermost c f)
    (hf : f ∈ (ofFragments fragments).symbols) (hkind : f.kind = .function) :
    ((((ofFragments fragments).symbols.filter (·.kind == .structOrClass)).map
        (ofFragments fragments).outlineOf).filter fun o => f.id ∈ o.methods).map ClassOutline.self
      = [c.id] := by
  have hnodup : ((ofFragments fragments).symbols.filter (·.kind == .structOrClass)).Nodup := by
    refine ((ofFragments_pairwise fragments).filter _).imp ?_
    intro a b hab heq
    rw [heq, (keyOrder_eq_iff b b).mpr rfl] at hab
    cases hab
  have honly : ∀ d ∈ (ofFragments fragments).symbols.filter (·.kind == .structOrClass),
      ((fun o : ClassOutline => decide (f.id ∈ o.methods)) ∘ (ofFragments fragments).outlineOf) d = (d == c) := by
    intro d hd
    obtain ⟨hd, -⟩ := (mem_classes_iff _).mp hd
    rw [Bool.eq_iff_iff, beq_iff_eq, Function.comp_apply, decide_eq_true_iff, mem_methods_iff hd hf hkind]
    constructor
    · intro h
      have hfound := (innermost?_eq_some_iff.mpr h).symm.trans (innermost?_eq_some_iff.mpr hc)
      exact Option.some.inj hfound
    · intro h
      rw [h]
      exact hc
  have hmem := (mem_classes_iff _).mpr ⟨hc.mem, hc.encloses.kind⟩
  rw [List.filter_map, List.filter_congr honly, List.filter_beq, List.count_eq_one_of_mem hnodup hmem]
  rfl

/-- The outlines of all classes, in the order of the table. -/
theorem isOutlined_map (fragments : List Fragment) :
    (ofFragments fragments).IsOutlined
      (((ofFragments fragments).symbols.filter (·.kind == .structOrClass)).map
        (ofFragments fragments).outlineOf) := by
  have hearlier : ∀ o ∈ ((ofFragments fragments).symbols.filter (·.kind == .structOrClass)).map
        (ofFragments fragments).outlineOf, ∀ id, o.outer = some id →
      ∃ d, d ∈ (ofFragments fragments).symbols.filter (·.kind == .structOrClass) ∧ d.id = id ∧
        id.file = o.self.file ∧ id.startLine < o.self.startLine := by
    intro o ho id hid
    obtain ⟨c, -, rfl⟩ := List.mem_map.mp ho
    obtain ⟨d, hd, rfl⟩ := outer_eq_some_iff.mp hid
    exact ⟨d, (mem_classes_iff _).mpr ⟨hd.mem, hd.encloses.kind⟩, rfl, hd.encloses.file, hd.encloses.starts⟩
  refine ⟨?_, ?_, ?_, ?_, ?_, ?_, ?_⟩
  · rw [List.map_map]
    rfl
  · intro o ho
    obtain ⟨c, -, rfl⟩ := List.mem_map.mp ho
    exact ⟨nodup_methods c, fun id hid => function_of_mem_methods _ hid⟩
  · intro f hf hkind hencloses
    obtain ⟨c, hc⟩ := exists_innermost_iff.mpr hencloses
    exact ⟨c, hc, filter_outlines_eq hc hf hkind⟩
  · intro f hf hkind hnone o ho hmem
    obtain ⟨c, hc, rfl⟩ := List.mem_map.mp ho
    obtain ⟨hc, -⟩ := (mem_classes_iff _).mp hc
    exact hnone c hc ((mem_methods_iff hc hf hkind).mp hmem).encloses
  · intro c hc o ho hself id
    obtain ⟨b, hb, rfl⟩ := List.mem_map.mp ho
    obtain rfl := eq_of_id_eq ((mem_classes_iff _).mp hb).1 hc hself
    exact outer_eq_some_iff
  · intro o ho id hid
    obtain ⟨d, hd, rfl, hfile, hline⟩ := hearlier o ho id hid
    refine ⟨?_, hfile, hline⟩
    rw [List.map_map]
    exact List.mem_map.mpr ⟨d, hd, rfl⟩
  · refine Subrelation.wf ?_ (InvImage.wf SymbolId.startLine Nat.lt_wfRel.wf)
    intro id id' h
    obtain ⟨o, ho, rfl, hid⟩ := h
    obtain ⟨-, -, -, -, hline⟩ := hearlier o ho id hid
    exact hline

end Fragments

end SymbolTable

namespace CallGraph

theorem fileOutlines_eq_map (g : CallGraph) (needle : Text) (file : String) :
    g.fileOutlines needle file
      = ((g.table.classesIn file).filter fun c => holdsNeedle needle c.name.toList).map g.table.outlineOf := by
  refine List.map_congr_left ?_
  intro c hc
  obtain ⟨-, rfl, -⟩ := g.table.mem_classesIn.mp (List.mem_of_mem_filter hc)
  rfl

/-- The outlines for a keyword are those of the classes whose name contains it, in the order of the table. -/
theorem classes_classOutline (sources : List Source) (limits : Limits) (keyword : String) :
    ((ofSources sources limits).classOutline keyword).classes
      = (((SymbolTable.ofSources sources).symbols.filter (·.kind == .structOrClass)).filter fun c =>
          holdsNeedle (needle keyword) c.name.toList).map (SymbolTable.ofSources sources).outlineOf := by
  show (SymbolTable.ofSources sources).files.flatMap
      ((ofSources sources limits).fileOutlines (needle keyword)) = _
  rw [List.flatMap_congr fun file _ => fileOutlines_eq_map (ofSources sources limits) (needle keyword) file,
    ← List.map_flatMap, ← SymbolTable.flatMap_symbolsIn sources, List.filter_flatMap, List.filter_flatMap]
  rfl

/-- **Class outlines partition the functions.** In the outlines of all classes of a table of sources, a function
that starts inside of a class is a method of exactly one class: the one around it that starts last, by name on a tie.
Any other function is listed nowhere. The links to outer classes stay in one file and lead to earlier lines, so they
form a forest. A keyword selects the outlines of the classes whose name contains it, letter case and the blanks
around the keyword apart, and leaves each of them as it is. -/
theorem classOutline_partitions_functions (sources : List Source) (limits : Limits) :
    (SymbolTable.ofSources sources).IsOutlined ((ofSources sources limits).classOutline "").classes ∧
    ∀ keyword, ((ofSources sources limits).classOutline keyword).classes
      = ((ofSources sources limits).classOutline "").classes.filter fun o =>
          Text.lowercase (Text.trim keyword.toList) <:+: Text.lowercase o.self.name.toList := by
  have hall : ((ofSources sources limits).classOutline "").classes
      = ((SymbolTable.ofSources sources).symbols.filter (·.kind == .structOrClass)).map
          (SymbolTable.ofSources sources).outlineOf := by
    have hneedle : ∀ c ∈ (SymbolTable.ofSources sources).symbols.filter (·.kind == .structOrClass),
        holdsNeedle (needle "") c.name.toList = true :=
      fun c _ => Text.occursIn_iff.mpr List.nil_infix
    rw [classes_classOutline, List.filter_eq_self.mpr hneedle]
  refine ⟨?_, ?_⟩
  · rw [hall]
    exact SymbolTable.isOutlined_map _
  · intro keyword
    rw [classes_classOutline, hall, List.filter_map]
    congr 1
    refine List.filter_congr ?_
    intro c _
    rw [Bool.eq_iff_iff, holdsNeedle, Text.occursIn_iff, Function.comp_apply, decide_eq_true_iff]
    rfl

/-- A class with a class inside of it, a method in each, and a function behind them. -/
def shapes : Source :=
  Source.ofText "shapes.py" .python
    "class Shape:\n def area(self): 0\n class Meta:\n  def tag(self): 1\ndef helper(): 2\n".toList

/-- The outer class. -/
def shapeClass : Symbol :=
  ⟨"Shape", .structOrClass, "shapes.py", 1, 4, "class Shape",
    "class Shape:\n def area(self): 0\n class Meta:\n  def tag(self): 1"⟩

/-- The class inside of it. -/
def metaClass : Symbol :=
  ⟨"Meta", .structOrClass, "shapes.py", 3, 4, "class Meta", " class Meta:\n  def tag(self): 1"⟩

/-- The method of the inner class. -/
def tagMethod : Symbol :=
  ⟨"tag", .function, "shapes.py", 4, 4, "def tag(self)", "  def tag(self): 1"⟩

/-- Both classes enclose the method, and only the inner one lists it. -/
theorem shapes_partition :
    tagMethod ∈ (SymbolTable.ofSources [shapes]).symbols ∧ shapeClass.Encloses tagMethod ∧
    (SymbolTable.ofSources [shapes]).Innermost metaClass tagMethod ∧
    (((ofSources [shapes] {}).classOutline "").classes.filter fun o => tagMethod.id ∈ o.methods).map
      ClassOutline.self = [metaClass.id] := by
  have hread : (Extraction.ofSource shapes).symbols
      = [shapeClass, ⟨"area", .function, "shapes.py", 2, 2, "def area(self)", " def area(self): 0"⟩, metaClass,
          tagMethod, ⟨"helper", .function, "shapes.py", 5, 5, "def helper()", "def helper(): 2"⟩] := by
    decide +kernel
  have hkeys : ([shapes].map Source.key).Nodup := by decide
  have hmem : ∀ s, s ∈ (SymbolTable.ofSources [shapes]).symbols ↔ s ∈ (Extraction.ofSource shapes).symbols := by
    intro s
    rw [SymbolTable.mem_ofSources_iff hkeys]
    simp
  have htag : tagMethod ∈ (SymbolTable.ofSources [shapes]).symbols := by
    rw [hmem, hread]
    decide
  have hmeta : metaClass ∈ (SymbolTable.ofSources [shapes]).symbols := by
    rw [hmem, hread]
    decide
  have hencloses : metaClass.Encloses tagMethod := ⟨rfl, rfl, by decide, by decide⟩
  obtain ⟨houtlined, -⟩ := classOutline_partitions_functions [shapes] {}
  obtain ⟨c, hc, honly⟩ := houtlined.inside tagMethod htag rfl ⟨metaClass, hmeta, hencloses⟩
  -- the class found starts no earlier than the inner one, and no other class does
  have hlate : 3 ≤ c.startLine := by
    have hlast := hc.last metaClass hmeta hencloses
    have hline : metaClass.startLine = 3 := rfl
    omega
  have heq : c = metaClass := by
    have hone : ∀ s ∈ (Extraction.ofSource shapes).symbols, s.kind = .structOrClass → 3 ≤ s.startLine →
        s = metaClass := by
      rw [hread]
      decide
    exact hone c ((hmem c).mp hc.mem) hc.encloses.kind hlate
  rw [heq] at hc honly
  exact ⟨htag, ⟨rfl, rfl, by decide, by decide⟩, hc, honly⟩

end CallGraph

end CodeAtlas
