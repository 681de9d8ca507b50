import CodeAtlas.Proofs.ExtractedSymbols
import Mathlib.Data.List.Forall2

/-!
# Sources with the same code

Two sources may differ in what their code view blanks out. If they have the same code and their lines start at
the same offsets, the rules find the same headers in both, and the tables built from them list the same symbols
on the same lines.

* `Source.SameCode`, `Symbol.SameOutline`: what agrees in two runs, of sources and of symbols;
* `Source.SameCode.findings?_eq`: the same headers are found;
* `Extraction.ofSource_sameOutline`: the symbols of two sources agree one by one;
* `SymbolTable.ofSources_sameOutline`: so do those of two tables.
-/

namespace CodeAtlas

/-- Two sources that differ at most in what their code does not show. -/
structure Source.SameCode (a b : Source) : Prop where
  key : a.key = b.key
  language : a.language = b.language
  code : a.code = b.code
  /-- The line feeds of the two texts stand at the same offsets. -/
  lineStarts : a.lineStarts = b.lineStarts

/-- Two symbols that differ at most in the texts that are cut out for them. -/
structure Symbol.SameOutline (s t : Symbol) : Prop where
  name : s.name = t.name
  kind : s.kind = t.kind
  file : s.file = t.file
  startLine : s.startLine = t.startLine
  endLine : s.endLine = t.endLine

theorem Symbol.SameOutline.id_eq {s t : Symbol} (h : s.SameOutline t) : s.id = t.id := by
  rw [Symbol.id, Symbol.id, h.name, h.file, h.startLine]

/-! ### What is found in a source -/

namespace Source.SameCode

variable {a b : Source}

theorem size_eq (h : a.SameCode b) : a.text.size = b.text.size := by
  rw [← a.size_code, ← b.size_code, h.code]

theorem lineAt_eq (h : a.SameCode b) (offset : Nat) : a.lineAt offset = b.lineAt offset := by
  rw [lineAt, lineAt, h.lineStarts]

theorem lineCount_eq (h : a.SameCode b) : a.lineCount = b.lineCount := by
  rw [a.lineCount_eq, b.lineCount_eq, h.lineStarts, h.size_eq]

theorem codeLines_eq (h : a.SameCode b) (first last : Nat) :
    a.codeLines first last = b.codeLines first last := by
  simp only [codeLines, codeLines?, lineSpan?, h.lineCount_eq, h.lineStarts, h.size_eq, h.code]

theorem braceBlockEnd_eq (h : a.SameCode b) (start : Nat) :
    a.braceBlockEnd start = b.braceBlockEnd start := by
  simp only [braceBlockEnd, h.code, h.lineAt_eq, h.lineCount_eq]

theorem indentedBlockEndFrom_eq (h : a.SameCode b) (indent : Nat) (lines : List Nat) :
    ∀ last, a.indentedBlockEndFrom indent last lines = b.indentedBlockEndFrom indent last lines := by
  induction lines with
  | nil => intro last; rfl
  | cons line rest ih =>
    intro last
    simp only [indentedBlockEndFrom, h.codeLines_eq, ih]

theorem indentedBlockEnd_eq (h : a.SameCode b) (headerEnd indent : Nat) :
    a.indentedBlockEnd headerEnd indent = b.indentedBlockEnd headerEnd indent := by
  rw [indentedBlockEnd, indentedBlockEnd, h.lineCount_eq, h.indentedBlockEndFrom_eq]

theorem functionAt?_eq (h : a.SameCode b) : CFamily.functionAt? a = CFamily.functionAt? b := by
  funext m
  simp only [CFamily.functionAt?, h.code, h.braceBlockEnd_eq]

theorem recordAt?_eq (h : a.SameCode b) : CFamily.recordAt? a = CFamily.recordAt? b := by
  funext m
  simp only [CFamily.recordAt?, h.code, h.braceBlockEnd_eq]

theorem typedefAt?_eq (h : a.SameCode b) : CFamily.typedefAt? a = CFamily.typedefAt? b := by
  funext m
  simp only [CFamily.typedefAt?, h.code, h.lineAt_eq]

theorem blockAt?_eq (h : a.SameCode b) (kind : SymbolKind) :
    Python.blockAt? a kind = Python.blockAt? b kind := by
  funext m
  simp only [Python.blockAt?, h.code, h.lineAt_eq, h.indentedBlockEnd_eq]

theorem definitionAt?_eq (h : a.SameCode b) (rule : Braces.Rule) :
    Braces.definitionAt? a rule = Braces.definitionAt? b rule := by
  funext m
  simp only [Braces.definitionAt?, h.code, h.lineAt_eq, h.braceBlockEnd_eq]

/-- The rules read the code and the offsets of the lines, and nothing else. -/
theorem findings?_eq (h : a.SameCode b) (family : RuleFamily) :
    Extraction.findings? family a = Extraction.findings? family b := by
  cases family with
  | cFamily =>
    simp only [Extraction.findings?, CFamily.findings?, h.code, h.functionAt?_eq, h.recordAt?_eq,
      h.typedefAt?_eq]
  | python => simp only [Extraction.findings?, Python.findings?, h.code, h.blockAt?_eq]
  | generic => simp only [Extraction.findings?, Braces.findings?, h.code, h.definitionAt?_eq]

end Source.SameCode

/-! ### The symbols of an extraction -/

/-- A header has symbols on the same lines in both sources: the blanks in front of it are passed over in the
text, but they never lead to another line. -/
theorem Header.symbol?_sameOutline {a b : Source} (hab : a.SameCode b) {family family' : RuleFamily}
    {h : Header} (ha : a.Places family h) (hb : b.Places family' h) {s t : Symbol}
    (hs : h.symbol? a = some s) (ht : h.symbol? b = some t) : s.SameOutline t := by
  obtain ⟨signature, body, heq⟩ := Header.symbol?_eq ha.heads ha.boundary
  obtain ⟨signature', body', heq'⟩ := Header.symbol?_eq hb.heads hb.boundary
  cases heq.symm.trans hs
  cases heq'.symm.trans ht
  refine ⟨rfl, rfl, hab.key, hab.lineAt_eq _, ?_⟩
  dsimp only
  rw [hab.lineAt_eq]

/-! ### Lists in two runs -/

section Lists

variable {α : Type} {R : α → α → Prop} {le same : α → α → Bool}

theorem map_eq_of_rel {β : Type} {f g : α → β} (hfg : ∀ a b, R a b → f a = g b) {o o' : Option α}
    (h : Option.Rel R o o') : o.map f = o'.map g := by
  cases h with
  | none => rfl
  | some hab => rw [Option.map_some, Option.map_some, hfg _ _ hab]

theorem map_eq_of_forall₂ {β : Type} {f g : α → β} (hfg : ∀ a b, R a b → f a = g b) {l l' : List α}
    (h : List.Forall₂ R l l') : l.map f = l'.map g := by
  rw [← List.forall₂_eq_eq_eq]
  exact List.rel_map (P := (· = ·)) hfg h

theorem any_eq_of_forall₂ {p q : α → Bool} (hpq : ∀ a b, R a b → p a = q b) {l l' : List α}
    (h : List.Forall₂ R l l') : l.any p = l'.any q := by
  induction h with
  | nil => rfl
  | cons hab _ ih => rw [List.any_cons, List.any_cons, hpq _ _ hab, ih]

/-- Two steps that give related results for each element of a list give related lists. -/
theorem forall₂_of_forall₂ {β : Type} {P Q : β → α → Prop} {xs : List β} {ys : List α}
    (hys : List.Forall₂ P xs ys) :
    ∀ {zs : List α}, List.Forall₂ Q xs zs → (∀ x ∈ xs, ∀ y z, P x y → Q x z → R y z) →
      List.Forall₂ R ys zs := by
  induction hys with
  | nil =>
    intro zs hzs _
    cases hzs
    exact .nil
  | @cons x y xs ys hy _ ih =>
    intro zs hzs hR
    cases hzs with
    | @cons _ z _ _ hz hzs =>
      refine .cons (hR x List.mem_cons_self y z hy hz) (ih hzs ?_)
      intro x' hx'
      exact hR x' (List.mem_cons_of_mem x hx')

end Lists

namespace Extraction

theorem push_sameOutline {e e' : Extraction} {s s' : Symbol}
    (he : List.Forall₂ Symbol.SameOutline e.symbols e'.symbols) (hs : s.SameOutline s') :
    List.Forall₂ Symbol.SameOutline (e.push s).symbols (e'.push s').symbols := by
  have hany : e.symbols.any (fun t => t.startLine == s.startLine && t.name == s.name)
      = e'.symbols.any (fun t => t.startLine == s'.startLine && t.name == s'.name) := by
    apply any_eq_of_forall₂ _ he
    intro t t' ht
    rw [ht.startLine, ht.name, hs.startLine, hs.name]
  rw [push, push, hany]
  split_ifs
  · exact he
  · exact List.rel_append he (.cons hs .nil)

/-- **The symbols of two sources with the same code** agree one by one. -/
theorem ofSource_sameOutline {a b : Source} (h : a.SameCode b) :
    List.Forall₂ Symbol.SameOutline (ofSource a).symbols (ofSource b).symbols := by
  obtain ⟨findings, symbols, includes, hfindings, hplaces, hsymbols, he⟩ := exists_steps a.language.family a
  obtain ⟨findings', symbols', includes', hfindings', hplaces', hsymbols', he'⟩ :=
    exists_steps b.language.family b
  have hsame : findings' = findings := by
    rw [h.findings?_eq, h.language, hfindings'] at hfindings
    exact Option.some.inj hfindings
  subst hsame
  have hrel : List.Forall₂ Symbol.SameOutline symbols symbols' := by
    apply forall₂_of_forall₂ hsymbols hsymbols'
    intro header hheader s t hs ht
    exact Header.symbol?_sameOutline h (hplaces header hheader) (hplaces' header hheader) hs ht
  rw [ofSource, ofSource?, he, ofSource, ofSource?, he', Option.getD_some, Option.getD_some]
  apply sortBy_forall₂
  · intro a a' b b' ha hb
    rw [inOrder, inOrder, ha.startLine, hb.startLine, ha.name, hb.name]
  · have hpush : ∀ e e' : Extraction, List.Forall₂ Symbol.SameOutline e.symbols e'.symbols →
        ∀ s s' : Symbol, s.SameOutline s' →
          List.Forall₂ Symbol.SameOutline (e.push s).symbols (e'.push s').symbols :=
      fun _ _ he _ _ hs => push_sameOutline he hs
    exact List.rel_foldl hpush .nil hrel

end Extraction

/-! ### The symbols and sources of a table -/

namespace SymbolTable

variable {as bs : List Source}

/-- **The tables of sources with the same code** list the same symbols on the same lines. -/
theorem ofSources_sameOutline (h : List.Forall₂ Source.SameCode as bs) :
    List.Forall₂ Symbol.SameOutline (ofSources as).symbols (ofSources bs).symbols := by
  have hsymbols : List.Forall₂ Symbol.SameOutline
      ((as.map Fragment.ofSource).flatMap Fragment.symbols)
      ((bs.map Fragment.ofSource).flatMap Fragment.symbols) := by
    rw [List.flatMap_map, List.flatMap_map]
    exact List.rel_flatMap h fun _ _ hab => Extraction.ofSource_sameOutline hab
  apply eraseRepsBy_forall₂
  · intro a a' b b' ha hb
    rw [sameId, sameId, ha.file, hb.file, ha.startLine, hb.startLine, ha.name, hb.name]
  · apply sortBy_forall₂ _ hsymbols
    intro a a' b b' ha hb
    rw [inOrder, inOrder, ha.file, hb.file, ha.startLine, hb.startLine, ha.name, hb.name]

/-- Two dictionaries of sources have the same keys, and sources with the same code under each. -/
def SameSources (d d' : Dict Source) : Prop :=
  ∀ file : String, Option.Rel Source.SameCode d[file]? d'[file]?

theorem SameSources.insert {d d' : Dict Source} (h : SameSources d d') {a b : Source} (hab : a.SameCode b) :
    SameSources (d.insert a.key a) (d'.insert b.key b) := by
  intro file
  rw [Std.ExtTreeMap.getElem?_insert, Std.ExtTreeMap.getElem?_insert, hab.key]
  split_ifs
  · exact .some hab
  · exact h file

theorem SameSources.keys_eq {d d' : Dict Source} (h : SameSources d d') : d.keys = d'.keys := by
  have hmap : d.map (fun _ _ => ()) = d'.map (fun _ _ => ()) := by
    apply Std.ExtTreeMap.ext_getElem?
    intro file
    rw [Std.ExtTreeMap.getElem?_map, Std.ExtTreeMap.getElem?_map]
    exact map_eq_of_rel (fun _ _ _ => rfl) (h file)
  have hkeys := congrArg Std.ExtTreeMap.keys hmap
  rwa [Std.ExtTreeMap.keys_map, Std.ExtTreeMap.keys_map] at hkeys

theorem ofSources_sameSources (h : List.Forall₂ Source.SameCode as bs) :
    SameSources (ofSources as).sources (ofSources bs).sources := by
  show SameSources
    ((as.map Fragment.ofSource).foldl (fun d f => d.insert f.source.key f.source) ∅)
    ((bs.map Fragment.ofSource).foldl (fun d f => d.insert f.source.key f.source) ∅)
  rw [List.foldl_map, List.foldl_map]
  have hinsert : ∀ d d' : Dict Source, SameSources d d' → ∀ a b : Source, a.SameCode b →
      SameSources (d.insert a.key a) (d'.insert b.key b) := fun _ _ hd _ _ hab => hd.insert hab
  have hempty : SameSources ∅ ∅ := by
    intro file
    rw [Std.ExtTreeMap.getElem?_empty]
    exact .none
  exact List.rel_foldl hinsert hempty h

end SymbolTable

end CodeAtlas
