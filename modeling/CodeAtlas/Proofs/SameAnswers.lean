import CodeAtlas.Query.CallPath
import CodeAtlas.Query.CallTree
import CodeAtlas.Query.ClassOutline
import CodeAtlas.Query.Complexity
import CodeAtlas.Query.FileDependency
import CodeAtlas.Proofs.SameCode

/-!
# Answers depend on the code alone

What stands in comments and strings cannot influence an answer. Two tables whose symbols agree in outline and
code give the same call graph, and every query about calls, classes, files and complexity has the same answer.

* `SymbolTable.Alike`: what two tables have to agree in;
* `CallGraph.Alike`: the same for call graphs, with one lemma for each query;
* `answers_depend_on_code_alone`: sources with the same code have the same answers.
-/

namespace CodeAtlas

/-! ### Tables -/

/-- Two tables whose symbols agree one by one in outline and code, with the same files. -/
structure SymbolTable.Alike (t t' : SymbolTable) : Prop where
  symbols : List.Forall₂ (fun s s' => s.SameOutline s' ∧ t.codeOf s = t'.codeOf s') t.symbols t'.symbols
  files : t.files = t'.files

theorem any_eq_of_rel {α : Type} {R : α → α → Prop} {p q : α → Bool} (hpq : ∀ a b, R a b → p a = q b)
    {o o' : Option α} (h : Option.Rel R o o') : o.any p = o'.any q := by
  cases h with
  | none => rfl
  | some hab => exact hpq _ _ hab

theorem getD_of_rel {α : Type} {R : α → α → Prop} {o o' : Option α} {a b : α} (h : Option.Rel R o o')
    (hab : R a b) : R (o.getD a) (o'.getD b) := by
  cases h with
  | none => exact hab
  | some h => exact h

theorem getElem?_of_forall₂ {α : Type} {R : α → α → Prop} {l l' : List α} (h : List.Forall₂ R l l') :
    ∀ i : Nat, Option.Rel R l[i]? l'[i]? := by
  induction h with
  | nil => intro i; exact .none
  | cons hab _ ih =>
    intro i
    cases i with
    | zero => exact .some hab
    | succ i => exact ih i

theorem zip_forall₂ {α β : Type} {R : α → α → Prop} {l l' : List α} (h : List.Forall₂ R l l') :
    ∀ m : List β, List.Forall₂ (fun p q => R p.1 q.1 ∧ p.2 = q.2) (l.zip m) (l'.zip m) := by
  induction h with
  | nil => intro m; exact .nil
  | cons hab _ ih =>
    intro m
    cases m with
    | nil => exact .nil
    | cons b m => exact .cons ⟨hab, rfl⟩ (ih m)

/-- An index is filled from the keys of the symbols. -/
theorem indexFrom_eq {key : Symbol → String} {l l' : List Symbol}
    (h : List.Forall₂ (fun s s' => key s = key s') l l') :
    ∀ (position : Nat) (index : Dict (List Nat)),
      indexFrom key position index l = indexFrom key position index l' := by
  induction h with
  | nil => intro position index; rfl
  | cons hkey _ ih => intro position index; rw [indexFrom, indexFrom, hkey, ih]

namespace SymbolTable

/-- Sources with the same code have tables that are alike. -/
theorem alike_ofSources {as bs : List Source} (h : List.Forall₂ Source.SameCode as bs) :
    (ofSources as).Alike (ofSources bs) := by
  have hsources := ofSources_sameSources h
  refine ⟨?_, hsources.keys_eq⟩
  have hzip := List.forall₂_iff_zip.mp (ofSources_sameOutline h)
  refine List.forall₂_iff_zip.mpr ⟨hzip.1, ?_⟩
  intro s s' hmem
  have houtline := hzip.2 hmem
  refine ⟨houtline, ?_⟩
  obtain ⟨source, hsource⟩ := exists_source? (List.of_mem_zip hmem).1
  obtain ⟨source', hsource'⟩ := exists_source? (List.of_mem_zip hmem).2
  have hrel := hsources s.file
  rw [codeOf, codeOf, hsource, hsource']
  rw [source?] at hsource hsource'
  rw [hsource, houtline.file, hsource'] at hrel
  cases hrel with
  | some hcode => dsimp only; rw [hcode.codeLines_eq, houtline.startLine, houtline.endLine]

namespace Alike

variable {t t' : SymbolTable}

theorem sameOutline (h : t.Alike t') : List.Forall₂ Symbol.SameOutline t.symbols t'.symbols :=
  h.symbols.imp fun _ _ hs => hs.1

theorem byName_eq (h : t.Alike t') : t.byName = t'.byName := by
  rw [t.byName_eq, t'.byName_eq]
  exact indexFrom_eq (h.sameOutline.imp fun _ _ hs => hs.name) 0 ∅

theorem byFile_eq (h : t.Alike t') : t.byFile = t'.byFile := by
  rw [t.byFile_eq, t'.byFile_eq]
  exact indexFrom_eq (h.sameOutline.imp fun _ _ hs => hs.file) 0 ∅

theorem positions_eq (h : t.Alike t') (name : String) : t.positions name = t'.positions name := by
  rw [positions, positions, h.byName_eq]

theorem containsName_eq (h : t.Alike t') (name : String) : t.containsName name = t'.containsName name := by
  rw [containsName, containsName, h.byName_eq]

theorem callEdges_eq (h : t.Alike t') {s s' : Symbol} (hs : s.SameOutline s')
    (hcode : t.codeOf s = t'.codeOf s') : t.callEdges s = t'.callEdges s' := by
  simp only [callEdges, hcode, hs.startLine, hs.name, hs.id_eq, h.containsName_eq]

theorem positionOf?_eq (h : t.Alike t') (id : SymbolId) : t.positionOf? id = t'.positionOf? id := by
  have his : ∀ i : Nat, t.symbols[i]?.any (·.is id) = t'.symbols[i]?.any (·.is id) := by
    intro i
    apply any_eq_of_rel _ (getElem?_of_forall₂ h.sameOutline i)
    intro s s' hs
    rw [Symbol.is, Symbol.is, hs.startLine, hs.name, hs.file]
  simp only [positionOf?, h.positions_eq, his]

theorem get?_rel (h : t.Alike t') (id : SymbolId) :
    Option.Rel (fun s s' => s.SameOutline s' ∧ t.codeOf s = t'.codeOf s') (t.get? id) (t'.get? id) := by
  rw [get?, get?, h.positionOf?_eq]
  cases t'.positionOf? id with
  | none => exact .none
  | some i => exact getElem?_of_forall₂ h.symbols i

theorem symbolsIn_sameOutline (h : t.Alike t') (file : String) :
    List.Forall₂ Symbol.SameOutline (t.symbolsIn file) (t'.symbolsIn file) := by
  rw [symbolsIn, symbolsIn, h.byFile_eq]
  exact List.rel_filterMap (R := (· = ·)) (fun i j hij => hij ▸ getElem?_of_forall₂ h.sameOutline i)
    (List.forall₂_refl _)

end Alike

end SymbolTable

/-! ### Class outlines -/

theorem innermost?_sameOutline {classes classes' : List Symbol}
    (h : List.Forall₂ Symbol.SameOutline classes classes') {s s' : Symbol} (hs : s.SameOutline s') :
    Option.Rel Symbol.SameOutline (innermost? classes s) (innermost? classes' s') := by
  have hlater : ∀ b b', Option.Rel Symbol.SameOutline b b' → ∀ c c', c.SameOutline c' →
      Option.Rel Symbol.SameOutline (laterStart b c) (laterStart b' c') := by
    intro b b' hb c c' hc
    cases hb with
    | none => exact .some hc
    | some hb =>
      simp only [laterStart, hb.startLine, hc.startLine]
      split_ifs
      · exact .some hc
      · exact .some hb
  apply List.rel_foldl hlater .none
  apply List.rel_filter _ h
  intro c c' hc
  dsimp only
  rw [hc.id_eq, hs.id_eq, Symbol.startsInside, Symbol.startsInside, hc.startLine, hc.endLine, hs.startLine]

/-! ### Call graphs -/

namespace CallGraph

/-- Two call graphs with the same limits over tables that are alike. -/
structure Alike (g g' : CallGraph) : Prop where
  table : g.table.Alike g'.table
  limits : g.limits = g'.limits

namespace Alike

variable {g g' : CallGraph}

theorem edges_eq (h : g.Alike g') : g.edges = g'.edges := by
  rw [g.edges_eq, g'.edges_eq]
  exact map_eq_of_forall₂ (fun _ _ hs => h.table.callEdges_eq hs.1 hs.2) h.table.symbols

theorem edgesAt_eq (h : g.Alike g') (position : Nat) : g.edgesAt position = g'.edgesAt position := by
  rw [edgesAt, edgesAt, h.edges_eq]

theorem symbolAt_sameOutline (h : g.Alike g') (position : Nat) :
    Symbol.SameOutline (g.table.symbols[position]?.getD default)
      (g'.table.symbols[position]?.getD default) := by
  apply getD_of_rel (getElem?_of_forall₂ h.table.sameOutline position)
  exact ⟨rfl, rfl, rfl, rfl, rfl⟩

theorem fileAt_eq (h : g.Alike g') (position : Nat) : g.fileAt position = g'.fileAt position := by
  exact map_eq_of_rel (fun _ _ hs => hs.file) (getElem?_of_forall₂ h.table.sameOutline position)

theorem resolve_eq (h : g.Alike g') (caller : Nat) (callee : String) :
    g.resolve caller callee = g'.resolve caller callee := by
  simp only [resolve, h.table.positions_eq, h.fileAt_eq]

theorem grow_eq (h : g.Alike g') (depth : Nat) :
    ∀ onWay callLine position budget,
      g.grow depth onWay callLine position budget = g'.grow depth onWay callLine position budget := by
  induction depth with
  | zero =>
    intro onWay callLine position budget
    have hs := h.symbolAt_sameOutline position
    simp only [grow, hs.name, hs.id_eq, hs.kind, h.edgesAt_eq]
  | succ depth ih =>
    intro onWay callLine position budget
    have hs := h.symbolAt_sameOutline position
    simp only [grow, hs.name, hs.id_eq, hs.kind, h.edgesAt_eq, h.resolve_eq, ih]

theorem callTree_eq (h : g.Alike g') (name : String) (depth : Nat) :
    g.callTree name depth = g'.callTree name depth := by
  have htree : g.treeAt = g'.treeAt := by
    funext depth position
    rw [treeAt, treeAt, h.limits, h.grow_eq]
  simp only [callTree, h.limits, h.table.positions_eq, htree]

theorem adjacency_eq (h : g.Alike g') : g.adjacency = g'.adjacency := by
  have hinsert : ∀ d d' : Dict (List String), d = d' → ∀ p q : Symbol × List CallEdge,
      p.1.SameOutline q.1 ∧ p.2 = q.2 →
      d.insert p.1.name (addNames (d.getD p.1.name []) (p.2.map CallEdge.callee))
        = d'.insert q.1.name (addNames (d'.getD q.1.name []) (q.2.map CallEdge.callee)) := by
    intro d d' hd p q hpq
    rw [hd, hpq.1.name, hpq.2]
  rw [adjacency, adjacency, h.edges_eq]
  exact List.rel_foldl hinsert rfl (zip_forall₂ h.table.sameOutline g'.edges)

theorem calls_eq (h : g.Alike g') (position : Nat) : g.calls position = g'.calls position := by
  funext name
  rw [calls, calls, h.edgesAt_eq]

theorem representativesAfter_eq (h : g.Alike g') (names : NamePath) :
    ∀ previous, g.representativesAfter previous names = g'.representativesAfter previous names := by
  induction names with
  | nil => intro previous; rfl
  | cons name rest ih =>
    intro previous
    simp only [representativesAfter, h.calls_eq, h.resolve_eq, h.table.positions_eq,
      (h.symbolAt_sameOutline _).id_eq, ih]

theorem pathSearch_eq (h : g.Alike g') (source target : String) (hops : Nat) :
    g.pathSearch source target hops = g'.pathSearch source target hops := by
  have hrepresentatives : g.representatives = g'.representatives := by
    funext names
    exact h.representativesAfter_eq names none
  simp only [pathSearch, h.limits, h.table.containsName_eq, h.adjacency_eq, hrepresentatives]

theorem fileOutlines_eq (h : g.Alike g') (needle : Text) (file : String) :
    g.fileOutlines needle file = g'.fileOutlines needle file := by
  have hsymbols := h.table.symbolsIn_sameOutline file
  have hclasses : List.Forall₂ Symbol.SameOutline
      ((g.table.symbolsIn file).filter (·.kind == .structOrClass))
      ((g'.table.symbolsIn file).filter (·.kind == .structOrClass)) :=
    List.rel_filter (fun s s' hs => by dsimp only; rw [hs.kind]) hsymbols
  apply map_eq_of_forall₂ (R := Symbol.SameOutline)
  · intro c c' hc
    rw [ClassOutline.mk.injEq]
    refine ⟨hc.id_eq, ?_, ?_⟩
    · apply map_eq_of_forall₂ (R := Symbol.SameOutline) fun _ _ hs => hs.id_eq
      apply List.rel_filter _ hsymbols
      intro s s' hs
      have hinner := any_eq_of_rel (p := (·.id == c.id)) (q := (·.id == c'.id))
        (fun _ _ hs => by rw [hs.id_eq, hc.id_eq]) (innermost?_sameOutline hclasses hs)
      dsimp only
      rw [hs.kind, hinner]
    · exact map_eq_of_rel (fun _ _ hs => hs.id_eq) (innermost?_sameOutline hclasses hc)
  · exact List.rel_filter (fun s s' hs => by dsimp only; rw [hs.name]) hclasses

theorem classOutline_eq (h : g.Alike g') (keyword : String) :
    g.classOutline keyword = g'.classOutline keyword := by
  have hfile : g.fileOutlines (needle keyword) = g'.fileOutlines (needle keyword) := by
    funext file
    exact h.fileOutlines_eq _ file
  simp only [classOutline, hfile, h.table.files]

theorem filePairsAt_eq (h : g.Alike g') (position : Nat) {s s' : Symbol} (hs : s.SameOutline s') :
    g.filePairsAt position s = g'.filePairsAt position s' := by
  simp only [filePairsAt, h.edgesAt_eq, h.resolve_eq, h.fileAt_eq, hs.file]

theorem filePairs_eq (h : g.Alike g') : g.filePairs = g'.filePairs := by
  have hzip := zip_forall₂ h.table.sameOutline (List.range' 0 g.table.symbols.length)
  rw [filePairs, filePairs, List.zipIdx_eq_zip_range', List.zipIdx_eq_zip_range',
    ← h.table.sameOutline.length_eq, ← List.forall₂_eq_eq_eq]
  apply List.rel_flatMap hzip
  intro p q hpq
  rw [List.forall₂_eq_eq_eq]
  dsimp only
  rw [hpq.2]
  exact h.filePairsAt_eq q.2 hpq.1

theorem fileDependencies_eq (h : g.Alike g') : g.fileDependencies = g'.fileDependencies := by
  rw [fileDependencies, fileDependencies, h.filePairs_eq, h.table.files]

theorem complexity?_eq (h : g.Alike g') (id : SymbolId) : g.complexity? id = g'.complexity? id := by
  apply map_eq_of_rel _ (h.table.get?_rel id)
  intro s s' hs
  rw [hs.2]

end Alike

/-- The call graph of some sources. -/
def ofSources (sources : List Source) (limits : Limits) : CallGraph :=
  ofTable (.ofSources sources) limits

theorem alike_ofSources {as bs : List Source} (h : List.Forall₂ Source.SameCode as bs) (limits : Limits) :
    (ofSources as limits).Alike (ofSources bs limits) :=
  ⟨SymbolTable.alike_ofSources h, rfl⟩

end CallGraph

/-- **Answers depend on the code alone.** Take two lists of sources that agree pairwise on key, language, code and
the places of line feeds, whatever their comments and strings hold. Their tables list the same symbols up to the
texts that are cut out for them, in the same order. Under the same limits they have the same call edges, and every
call tree, path search, class outline, file dependency and complexity report is the same. -/
theorem answers_depend_on_code_alone {as bs : List Source} (h : List.Forall₂ Source.SameCode as bs)
    (limits : Limits) :
    List.Forall₂ Symbol.SameOutline (SymbolTable.ofSources as).symbols (SymbolTable.ofSources bs).symbols ∧
    (CallGraph.ofSources as limits).edges = (CallGraph.ofSources bs limits).edges ∧
    (∀ name depth,
      (CallGraph.ofSources as limits).callTree name depth
        = (CallGraph.ofSources bs limits).callTree name depth) ∧
    (∀ source target hops,
      (CallGraph.ofSources as limits).pathSearch source target hops
        = (CallGraph.ofSources bs limits).pathSearch source target hops) ∧
    (∀ keyword,
      (CallGraph.ofSources as limits).classOutline keyword
        = (CallGraph.ofSources bs limits).classOutline keyword) ∧
    (CallGraph.ofSources as limits).fileDependencies = (CallGraph.ofSources bs limits).fileDependencies ∧
    ∀ id, (CallGraph.ofSources as limits).complexity? id = (CallGraph.ofSources bs limits).complexity? id := by
  have hgraphs := CallGraph.alike_ofSources h limits
  exact ⟨SymbolTable.ofSources_sameOutline h, hgraphs.edges_eq, hgraphs.callTree_eq, hgraphs.pathSearch_eq,
    hgraphs.classOutline_eq, hgraphs.fileDependencies_eq, hgraphs.complexity?_eq⟩

/-- A function with a call in its code and the start of one in a string. -/
def quotedCall : Source :=
  Source.ofText "a.py" .python "def f(): g('f(')\ndef g(): 0\n".toList

/-- The same function with one character of two bytes in the string. -/
def accentedString : Source :=
  Source.ofText "a.py" .python "def f(): g('é')\ndef g(): 0\n".toList

/-- The two sources have functions with different bodies, and the same calls between them. -/
theorem quotedCall_same_answers :
    quotedCall.SameCode accentedString ∧
    (Extraction.ofSource quotedCall).symbols ≠ (Extraction.ofSource accentedString).symbols ∧
    (CallGraph.ofSources [quotedCall] {}).edges = (CallGraph.ofSources [accentedString] {}).edges ∧
    (CallGraph.ofSources [quotedCall] {}).pathSearch "f" "g" 3
      = (CallGraph.ofSources [accentedString] {}).pathSearch "f" "g" 3 := by
  have hsame : quotedCall.SameCode accentedString :=
    ⟨by decide, by decide, by decide +kernel, by decide +kernel⟩
  have hanswers := answers_depend_on_code_alone (.cons hsame .nil) {}
  exact ⟨hsame, by decide +kernel, hanswers.2.1, hanswers.2.2.2.1 "f" "g" 3⟩

end CodeAtlas
