import CodeAtlas.Proofs.CountedBlocks
import CodeAtlas.Proofs.HeaderPatterns
import CodeAtlas.Proofs.PatternApart

/-!
# Types that are reported as types

The rules of definitions with a keyword or modifiers are applied one after another, and of the definitions at a place
the first one is kept. So a type is reported as a type unless a rule for functions finds a definition of its name on
its line. Only the rule for methods can do so, and only where the keyword of the type stands as the type of a method,
or where the type has the name of a visibility.

* `Source.HeadsLine.eq_of_lineAt_eq`: two headers on one line start at one offset;
* `Braces.place?_of_definitionAt?`: which matches of a rule are definitions, and at which place;
* `Braces.IsMethodAt`: the header of a type is found as that of a method;
* `Braces.reports_type_iff`: these are the types that are not reported.
-/

namespace CodeAtlas

/-! ### Headers on one line -/

/-- The lines of headers tell their offsets apart. -/
theorem Source.HeadsLine.eq_of_lineAt_eq {source : Source} {a b : Nat} (ha : source.HeadsLine a)
    (hb : source.HeadsLine b) (h : source.lineAt a = source.lineAt b) : a = b := by
  have hle : ∀ {a b : Nat}, source.HeadsLine a → source.HeadsLine b → source.lineAt a = source.lineAt b → b ≤ a := by
    intro a b ha hb h
    obtain ⟨v, v', htext, rfl, -, -⟩ := ha.exists_blanks
    obtain ⟨w, w', htext', rfl, hline, -⟩ := hb.exists_blanks
    by_contra hlt
    -- a line feed ends what stands before the later header, behind the earlier one
    obtain ⟨d, rfl, -⟩ := Text.exists_append_of_size_le (htext.symm.trans htext') (by omega)
    rw [source.lineAt_size htext, source.lineAt_size htext', List.count_append] at h
    have hnone : '\n' ∉ d := List.count_eq_zero.mp (by omega)
    rcases List.eq_nil_or_concat d with rfl | ⟨d', c, rfl⟩
    · rw [List.append_nil] at hlt
      exact hlt (Nat.le_refl _)
    · rcases hline with hnil | ⟨line, hline⟩
      · simp at hnil
      · rw [List.concat_eq_append, ← List.append_assoc] at hline
        obtain ⟨-, hc⟩ := List.append_inj' hline rfl
        cases hc
        exact hnone (by simp)
  exact Nat.le_antisymm (hle hb ha h.symm) (hle ha hb h)

/-- Matches of patterns that are apart start at different offsets. -/
theorem Pattern.start_ne_of_apart {p q : Pattern} {text : Text} {m m' : Match} (h : apart p q = true)
    (hm : m ∈ p.findAll text) (hm' : m' ∈ q.findAll text) : m.span.start ≠ m'.span.start := by
  intro hstart
  obtain ⟨l, r, _, _, htext, hspan, hreads⟩ := finds_of_mem_findAll hm
  obtain ⟨l', r', _, _, htext', hspan', hreads'⟩ := finds_of_mem_findAll hm'
  rw [hspan, hspan'] at hstart
  obtain ⟨rfl, rfl⟩ := Text.append_inj_of_size (htext.symm.trans htext') hstart
  exact not_reads_of_apart h hreads hreads'

/-! ### The matches of a rule that are definitions -/

/-- The name that a match gives. -/
def Source.nameOf? (source : Source) (m : Match) : Option Text :=
  (m.group? 1).bind fun span => source.code.slice? span.start span.stop

/-- The other words of a match that can be refused. -/
def Source.wordsOf? (source : Source) (m : Match) : Option (List Text) :=
  (m.group? 2).toList.mapM fun span => source.code.slice? span.start span.stop

/-- Where the body of a definition is looked for: behind the match, or at the parenthesis that it ends with. -/
def Source.searchStart (source : Source) (m : Match) : Nat :=
  if source.code.charAt? (m.span.stop - 1) == some '(' then m.span.stop - 1 else m.span.stop

namespace Braces

open Pattern

/-- Whether a rule takes a match with this name and these other words: none of them is refused, and there is a body if
the rule asks for one. -/
def Rule.takes (rule : Rule) (source : Source) (m : Match) (name : Text) (words : List Text) : Bool :=
  !(rule.ambiguous && (name :: words).any isRefused) &&
    (rule.body != .block || (bodyOpen? source.code (source.searchStart m)).isSome)

section Definition

variable {source : Source} {rule : Rule} {m : Match} {f : Finding}

/-- **One match**: what its definition is, if it is one. -/
theorem header_of_definitionAt? (hf : definitionAt? source rule m = some f) :
    (source.nameOf? m = none ∧ f.header = none) ∨
      ∃ name words, source.nameOf? m = some name ∧ source.wordsOf? m = some words ∧
        f.header.map (fun h => (h.name, h.kind, h.start))
          = if rule.takes source m name words then some (name, rule.kind, m.span.start) else none := by
  unfold definitionAt? at hf
  cases hgroup : m.group? 1 with
  | none =>
    rw [hgroup] at hf
    cases hf
    exact .inl ⟨by rw [Source.nameOf?, hgroup]; rfl, rfl⟩
  | some group =>
    simp only [hgroup, Option.bind_eq_bind, Option.bind_eq_some_iff] at hf
    obtain ⟨name, hname, words, hwords, hf⟩ := hf
    refine .inr ⟨name, words, by rw [Source.nameOf?, hgroup]; exact hname, hwords, ?_⟩
    by_cases hrefused : (rule.ambiguous && (name :: words).any isRefused) = true
    · rw [if_pos hrefused] at hf
      cases hf
      rw [Rule.takes, hrefused]
      rfl
    · simp only [if_neg hrefused, Option.bind_eq_some_iff] at hf
      rw [Rule.takes, Bool.eq_false_iff.mpr hrefused, Bool.not_false, Bool.true_and]
      obtain ⟨last, hlast, endsOpen, hopen, hf⟩ := hf
      have hstart : source.searchStart m = if endsOpen then last else m.span.stop := by
        rw [Text.standsAt?] at hopen
        split_ifs at hopen
        cases hopen
        rw [Source.searchStart, Text.sub_one_of_before? hlast]
      rw [← hstart] at hf
      by_cases hblock : rule.body = .block
      · simp only [hblock, if_true] at hf
        rw [hblock]
        cases hopened : bodyOpen? source.code (source.searchStart m) with
        | none =>
          rw [hopened] at hf
          cases hf
          rfl
        | some opened =>
          rw [hopened] at hf
          cases hf
          rfl
      · rw [bne_iff_ne.mpr hblock]
        split at hf
        · cases hf
          rfl
        · rw [if_neg hblock] at hf
          cases hf
          rfl

theorem kind_of_definitionAt? (hf : definitionAt? source rule m = some f) {h : Header} (hh : f.header = some h) :
    h.kind = rule.kind := by
  rcases header_of_definitionAt? hf with ⟨-, hnone⟩ | ⟨name, words, -, -, heq⟩
  · rw [hh] at hnone
    cases hnone
  · rw [hh, Option.map_some] at heq
    split_ifs at heq
    exact congrArg (fun h => h.2.1) (Option.some.inj heq)

/-- A match is a definition at a place exactly if it has its name and line and is taken. -/
theorem place?_of_definitionAt? (hf : definitionAt? source rule m = some f) {name : Text} {line : Nat} :
    f.place? source = some (name, line) ↔ source.nameOf? m = some name ∧ source.lineAt m.span.start = line ∧
      ∃ words, source.wordsOf? m = some words ∧ rule.takes source m name words = true := by
  have hplace : f.place? source
      = (f.header.map fun h => (h.name, h.kind, h.start)).map fun h => (h.1, source.lineAt h.2.2) := by
    rw [Finding.place?, Option.map_map]
    rfl
  rcases header_of_definitionAt? hf with ⟨hname, hnone⟩ | ⟨name', words, hname, hwords, heq⟩
  · simp [hplace, hname, hnone]
  · rw [hplace, heq, hname, hwords]
    split_ifs with htakes
    · constructor
      · intro h
        cases h
        exact ⟨rfl, rfl, words, rfl, htakes⟩
      · rintro ⟨h, rfl, -⟩
        cases h
        rfl
    · constructor
      · intro h
        cases h
      · rintro ⟨h, -, words', h', htakes'⟩
        cases h
        cases h'
        exact absurd htakes' htakes

end Definition

/-! ### Types with their keyword in front -/

/-- The rule for methods. -/
def methodRule : Rule :=
  ⟨method, .function, .block, true⟩

/-- The header of a type is found as that of a method: up to a parenthesis it is one, its name is not refused, and
there is a body behind the parenthesis. -/
def IsMethodAt (source : Source) (start : Nat) (name : Text) : Prop :=
  ∃ l g u r : Text, source.code = l ++ (g ++ (u ++ '(' :: r)) ∧ start = l.size ∧ g.IsPadding ∧ HeadsMethod name u ∧
    isRefused name = false ∧ (bodyOpen? source.code (l ++ (g ++ u)).size).isSome = true

theorem methodRule_takes_iff {source : Source} {m : Match} {name : Text} {words : List Text} :
    methodRule.takes source m name words = true ↔
      (∀ word ∈ name :: words, isRefused word = false) ∧
        (bodyOpen? source.code (source.searchStart m)).isSome = true := by
  simp [Rule.takes, methodRule]

/-- A match for a method, as the rule for methods reads it. -/
theorem exists_method_of_mem_findAll {source : Source} {m : Match} (hm : m ∈ method.findAll source.code) :
    ∃ (l g : Text) (type : Option Text) (name u r : Text), source.code = l ++ (g ++ (u ++ '(' :: r)) ∧
      g.IsPadding ∧ MethodForm type name u ∧ m.span.start = l.size ∧ source.searchStart m = (l ++ (g ++ u)).size ∧
      source.nameOf? m = some name ∧ source.wordsOf? m = some type.toList := by
  obtain ⟨l, g, type, name, u, r, hcode, hg, hform, hspan, ⟨span, hgroup, hname⟩, hwords⟩ :=
    exists_methodForm_of_mem_findAll hm
  have hparen : source.code.charAt? (l ++ (g ++ u)).size = some '(' :=
    Text.charAt?_eq_some_iff.mpr ⟨l ++ (g ++ u), r, by rw [hcode]; simp, rfl⟩
  refine ⟨l, g, type, name, u, r, hcode, hg, hform, by rw [hspan], ?_, ?_, hwords⟩
  · rw [Source.searchStart, hspan]
    dsimp only
    rw [Nat.add_sub_cancel, hparen]
    rfl
  · rw [Source.nameOf?, hgroup]
    exact hname

/-- **One type**: its header is found as that of a method exactly if the rule for methods takes a match with the same
name that starts there. -/
theorem isMethodAt_iff {source : Source} {m : Match} {name : Text} (hm : m ∈ typeKeyword.findAll source.code)
    (hname : source.nameOf? m = some name) :
    IsMethodAt source m.span.start name ↔
      ∃ m' ∈ method.findAll source.code, m'.span.start = m.span.start ∧ source.nameOf? m' = some name ∧
        ∃ words, source.wordsOf? m' = some words ∧ methodRule.takes source m' name words = true := by
  obtain ⟨l, g, lead, typeName, rest, hcode, hline, hg, hlead, htypeName, hstart, span, hgroup, hslice⟩ :=
    exists_typeLead_of_mem_findAll hm
  rw [Source.nameOf?, hgroup] at hname
  obtain rfl : typeName = name := Option.some.inj (hslice.symm.trans hname)
  -- every header at this offset has the same text behind its padding
  have hsame : ∀ {l' g' u r : Text}, source.code = l' ++ (g' ++ (u ++ '(' :: r)) → l.size = l'.size →
      g'.IsPadding → Text.StartsName (u ++ '(' :: r) →
      l = l' ∧ g = g' ∧ u ++ '(' :: r = lead ++ (typeName ++ rest) := by
    intro l' g' u r hcode' hsize hg' hstarts
    obtain ⟨rfl, hbehind⟩ := Text.append_inj_of_size (hcode.symm.trans hcode') hsize
    obtain ⟨rfl, hbehind'⟩ := hg.append_inj hg' (hlead.startsName _).startsSolid hstarts.startsSolid hbehind
    exact ⟨rfl, rfl, hbehind'.symm⟩
  constructor
  · rintro ⟨l', g', u, r, hcode', hstart', hg', hheads, hfree, hbody⟩
    obtain ⟨type, hform⟩ := hheads.exists_methodForm htypeName
    obtain ⟨rfl, rfl, heq⟩ := hsame hcode' (hstart.symm.trans hstart') hg' (hform.startsName _)
    obtain ⟨m', hm', hstart''⟩ := exists_mem_findAll_of_methodForm hline hg hform (r := r)
    rw [← hcode'] at hm'
    obtain ⟨l', g', type', name', u', r', hcode'', hg', hform', hstart₂, hsearch, hname', hwords⟩ :=
      exists_method_of_mem_findAll hm'
    obtain ⟨rfl, rfl, heq'⟩ := hsame hcode'' (hstart''.symm.trans hstart₂) hg' (hform'.startsName _)
    obtain ⟨rfl, rfl⟩ := hform.unique hform' hlead htypeName heq heq'
    obtain ⟨-, hwords'⟩ := hform'.of_typeLead hlead htypeName heq'
    refine ⟨m', hm', hstart₂.trans hstart.symm, hname', _, hwords, methodRule_takes_iff.mpr ⟨?_, ?_⟩⟩
    · intro word hword
      rcases List.mem_cons.mp hword with rfl | hword
      · exact hfree
      · exact hwords' word (Option.mem_toList.mp hword)
    · rw [hsearch]
      exact hbody
  · rintro ⟨m', hm', hstart', hname', words, hwords, htakes⟩
    obtain ⟨l', g', type, name', u, r, hcode', hg', hform, hstart'', hsearch, hname'', hwords'⟩ :=
      exists_method_of_mem_findAll hm'
    obtain rfl : typeName = name' := Option.some.inj (hname'.symm.trans hname'')
    obtain ⟨rfl, rfl, heq⟩ := hsame hcode' (hstart.symm.trans (hstart'.symm.trans hstart'')) hg' (hform.startsName _)
    obtain ⟨hheads, -⟩ := hform.of_typeLead hlead htypeName heq
    obtain ⟨hfree, hbody⟩ := methodRule_takes_iff.mp htakes
    rw [hsearch] at hbody
    exact ⟨l, g, u, r, hcode', hstart, hg, hheads, hfree typeName List.mem_cons_self, hbody⟩

/-! ### The findings of some rules -/

theorem mem_iff_of_mapM {α β : Type} {f : α → Option β} {xs : List α} {ys : List β} (h : xs.mapM f = some ys) (y : β) :
    y ∈ ys ↔ ∃ x ∈ xs, f x = some y := by
  refine ⟨exists_of_mem_mapM h, ?_⟩
  rintro ⟨x, hx, hy⟩
  obtain ⟨i, hi, rfl⟩ := List.mem_iff_getElem.mp hx
  have hall := forall₂_of_mapM h
  have hi' : i < ys.length := by rwa [← hall.length_eq]
  obtain rfl : ys[i] = y := Option.some.inj ((hall.get hi hi').symm.trans hy)
  exact List.getElem_mem hi'

/-- The rules for definitions of a kind. -/
def rulesOf (kind : SymbolKind) : List Rule :=
  rules.filter fun rule => rule.kind == kind

/-- The rules for functions come first. -/
theorem rules_eq : rules = rulesOf .function ++ rulesOf .structOrClass :=
  rfl

theorem mem_rulesOf_iff {kind : SymbolKind} {rule : Rule} : rule ∈ rulesOf kind ↔ rule ∈ rules ∧ rule.kind = kind := by
  rw [rulesOf, List.mem_filter, beq_iff_eq]

/-- One of the rules finds this at one of its matches. -/
def IsFound (source : Source) (rules : List Rule) (f : Finding) : Prop :=
  ∃ rule ∈ rules, ∃ m ∈ rule.header.findAll source.code, definitionAt? source rule m = some f

/-- The findings are those of the rules for functions, and then those of the rules for types. -/
theorem exists_findings_eq {source : Source} {findings : List Finding} (h : findings? source = some findings) :
    ∃ functions types, findings = functions ++ types ∧ (∀ f, f ∈ functions ↔ IsFound source (rulesOf .function) f) ∧
      ∀ f, f ∈ types ↔ IsFound source (rulesOf .structOrClass) f := by
  have hpart : ∀ {rules : List Rule} {found : List (List Finding)},
      (rules.mapM fun rule => (rule.header.findAll source.code).mapM (definitionAt? source rule)) = some found →
      ∀ f, f ∈ found.flatten ↔ IsFound source rules f := by
    intro rules found hfound f
    rw [List.mem_flatten]
    constructor
    · rintro ⟨fs, hfs, hf⟩
      obtain ⟨rule, hrule, hmatches⟩ := (mem_iff_of_mapM hfound fs).mp hfs
      exact ⟨rule, hrule, (mem_iff_of_mapM hmatches f).mp hf⟩
    · rintro ⟨rule, hrule, hf⟩
      obtain ⟨i, hi, rfl⟩ := List.mem_iff_getElem.mp hrule
      have hall := forall₂_of_mapM hfound
      have hi' : i < found.length := by rwa [← hall.length_eq]
      exact ⟨_, List.getElem_mem hi', (mem_iff_of_mapM (hall.get hi hi') f).mpr hf⟩
  rw [findings?, rules_eq, List.mapM_append] at h
  simp only [Option.bind_eq_bind, Option.bind_eq_some_iff] at h
  obtain ⟨found, ⟨first, hfirst, second, hsecond, hfound⟩, h⟩ := h
  cases hfound
  cases h
  exact ⟨first.flatten, second.flatten, List.flatten_append, hpart hfirst, hpart hsecond⟩

/-! ### Types and the functions at their place -/

/-- A rule for functions takes a match with this name that starts at this offset. -/
def IsFunctionAt (source : Source) (start : Nat) (name : Text) : Prop :=
  ∃ rule ∈ rulesOf .function, ∃ m ∈ rule.header.findAll source.code, m.span.start = start ∧
    source.nameOf? m = some name ∧ ∃ words, source.wordsOf? m = some words ∧ rule.takes source m name words = true

/-- What holds of the rules for types: they take every match. -/
theorem rulesOf_types : ∀ rule ∈ rulesOf .structOrClass,
    rule.ambiguous = false ∧ rule.body ≠ .block ∧ rule.header.records 2 = true ∧ rule.header.records 3 = true := by
  decide

theorem Rule.takes_type {rule : Rule} (hrule : rule ∈ rulesOf .structOrClass) (source : Source) (m : Match)
    (name : Text) (words : List Text) : rule.takes source m name words = true := by
  obtain ⟨hambiguous, hbody, -⟩ := rulesOf_types rule hrule
  rw [Rule.takes, hambiguous, bne_iff_ne.mpr hbody]
  rfl

theorem headsLine_of_mem_findAll {source : Source} {rule : Rule} {m : Match} (hrule : rule ∈ rules)
    (hm : m ∈ rule.header.findAll source.code) : source.HeadsLine m.span.start := by
  obtain ⟨hanchored, hled, -⟩ := rules_headers rule hrule
  exact source.headsLine_of_finds (finds_of_mem_findAll hm) hanchored hled

/-- A match for a type is a definition of the name that it gives. -/
theorem exists_finding_of_type {source : Source} {rule : Rule} {m : Match} (hrule : rule ∈ rulesOf .structOrClass)
    (hm : m ∈ rule.header.findAll source.code) :
    ∃ name f, source.nameOf? m = some name ∧ IsFound source (rulesOf .structOrClass) f ∧
      f.place? source = some (name, source.lineAt m.span.start) := by
  obtain ⟨-, -, hstart, hstop⟩ := rulesOf_types rule hrule
  have hmem := (mem_rulesOf_iff.mp hrule).1
  obtain ⟨-, -, hgrouped, -⟩ := rules_headers rule hmem
  obtain ⟨f, hf, -⟩ := exists_definitionAt? hmem hm
  obtain ⟨span, hgroup⟩ := (finds_of_mem_findAll hm).exists_group 1 hstart hstop
  obtain ⟨name, hname⟩ := (finds_of_mem_findAll hm).exists_slice? hgrouped hgroup
  have hname' : source.nameOf? m = some name := by rw [Source.nameOf?, hgroup]; exact hname
  refine ⟨name, f, hname', ⟨rule, hrule, m, hm, hf⟩, (place?_of_definitionAt? hf).mpr ⟨hname', rfl, ?_⟩⟩
  rcases header_of_definitionAt? hf with ⟨hnone, -⟩ | ⟨-, words, -, hwords, -⟩
  · rw [hname'] at hnone
    cases hnone
  · exact ⟨words, hwords, Rule.takes_type hrule source m name words⟩

/-- A function is found at the place of a match exactly if a rule for functions takes one that starts there. -/
theorem isFunctionAt_iff {source : Source} {rule : Rule} {m : Match} {name : Text} (hrule : rule ∈ rules)
    (hm : m ∈ rule.header.findAll source.code) :
    IsFunctionAt source m.span.start name ↔
      ∃ f, IsFound source (rulesOf .function) f ∧ f.place? source = some (name, source.lineAt m.span.start) := by
  constructor
  · rintro ⟨rule', hrule', m', hm', hstart, hname, htakes⟩
    obtain ⟨f, hf, -⟩ := exists_definitionAt? (mem_rulesOf_iff.mp hrule').1 hm'
    exact ⟨f, ⟨rule', hrule', m', hm', hf⟩, (place?_of_definitionAt? hf).mpr ⟨hname, by rw [hstart], htakes⟩⟩
  · rintro ⟨f, ⟨rule', hrule', m', hm', hf⟩, hplace⟩
    obtain ⟨hname, hline, htakes⟩ := (place?_of_definitionAt? hf).mp hplace
    have hheads := headsLine_of_mem_findAll (mem_rulesOf_iff.mp hrule').1 hm'
    exact ⟨rule', hrule', m', hm', hheads.eq_of_lineAt_eq (headsLine_of_mem_findAll hrule hm) hline, hname, htakes⟩

theorem apart_typeBehind : ∀ rule ∈ rulesOf .function, apart rule.header typeBehind = true := by
  decide +kernel

theorem apart_typeKeyword : ∀ rule ∈ rulesOf .function, rule.ambiguous = false →
    apart rule.header typeKeyword = true := by
  decide +kernel

theorem eq_methodRule {rule : Rule} (hrule : rule ∈ rules) (h : rule.ambiguous = true) : rule = methodRule := by
  have hmem : rule ∈ rules.filter Rule.ambiguous := List.mem_filter.mpr ⟨hrule, h⟩
  have hone : rules.filter Rule.ambiguous = [methodRule] := rfl
  rw [hone] at hmem
  exact List.mem_singleton.mp hmem

/-- No function is found where a type has its keyword behind the name. -/
theorem not_isFunctionAt_typeBehind {source : Source} {m : Match} (hm : m ∈ typeBehind.findAll source.code)
    (name : Text) : ¬IsFunctionAt source m.span.start name := by
  rintro ⟨rule, hrule, m', hm', hstart, -⟩
  exact start_ne_of_apart (apart_typeBehind rule hrule) hm' hm hstart

/-- Where a type has its keyword in front, only methods are found. -/
theorem isFunctionAt_typeKeyword_iff {source : Source} {m : Match} {name : Text}
    (hm : m ∈ typeKeyword.findAll source.code) (hname : source.nameOf? m = some name) :
    IsFunctionAt source m.span.start name ↔ IsMethodAt source m.span.start name := by
  rw [isMethodAt_iff hm hname]
  constructor
  · rintro ⟨rule, hrule, m', hm', hstart, htakes⟩
    cases hambiguous : rule.ambiguous with
    | false => exact absurd hstart (start_ne_of_apart (apart_typeKeyword rule hrule hambiguous) hm' hm)
    | true =>
      obtain rfl := eq_methodRule (mem_rulesOf_iff.mp hrule).1 hambiguous
      exact ⟨m', hm', hstart, htakes⟩
  · rintro ⟨m', hm', hstart, htakes⟩
    exact ⟨methodRule, mem_rulesOf_iff.mpr ⟨by simp [rules, methodRule], rfl⟩, m', hm', hstart, htakes⟩

end Braces

/-! ### The kinds of the symbols -/

/-- An extraction holds a symbol of a kind with this name that starts on this line. -/
def Extraction.Reports (e : Extraction) (kind : SymbolKind) (name : Text) (line : Nat) : Prop :=
  ∃ s ∈ e.symbols, s.name = String.ofList name ∧ s.kind = kind ∧ s.startLine = line

/-- What has one name and line is reported once. -/
theorem Extraction.Reports.kind_eq {e : Extraction} {kind kind' : SymbolKind} {name : Text} {line : Nat}
    (h : e.Reports kind name line) (h' : e.Reports kind' name line)
    (hordered : e.symbols.Pairwise Symbol.PrecedesInFile) : kind = kind' := by
  obtain ⟨s, hs, hname, rfl, hline⟩ := h
  obtain ⟨t, ht, hname', rfl, hline'⟩ := h'
  have hnot : ∀ {a b : Symbol}, a.name = b.name → a.startLine = b.startLine → ¬a.PrecedesInFile b := by
    intro a b hname hline hlt
    rw [Symbol.PrecedesInFile, hname, hline] at hlt
    simp at hlt
  obtain ⟨i, hi, rfl⟩ := List.mem_iff_getElem.mp hs
  obtain ⟨j, hj, rfl⟩ := List.mem_iff_getElem.mp ht
  have hpairs := List.pairwise_iff_getElem.mp hordered
  rcases Nat.lt_trichotomy i j with hlt | rfl | hlt
  · exact absurd (hpairs i j hi hj hlt) (hnot (hname.trans hname'.symm) (hline.trans hline'.symm))
  · rfl
  · exact absurd (hpairs j i hj hi hlt) (hnot (hname'.trans hname.symm) (hline'.trans hline.symm))

/-- The definition that a kept finding is, is reported. -/
theorem Extraction.reports_of_kept {family : RuleFamily} {source : Source} {findings : List Finding}
    {e : Extraction} {symbols : List Symbol} {g : Finding} {h : Header} (hperm : e.symbols.Perm symbols)
    (hplaces : ∀ h ∈ findings.filterMap Finding.header, source.Places family h)
    (hyields : List.Forall₂ (Finding.Yields source) (Finding.kept source findings) symbols)
    (hg : g ∈ Finding.kept source findings) (hh : g.header = some h) :
    e.Reports h.kind h.name (source.lineAt h.start) := by
  obtain ⟨i, hi, rfl⟩ := List.mem_iff_getElem.mp hg
  have hi' : i < symbols.length := by rwa [← hyields.length_eq]
  obtain ⟨h', hh', hs⟩ := hyields.get hi hi'
  cases hh.symm.trans hh'
  have hmem : h ∈ findings.filterMap Finding.header :=
    List.mem_filterMap.mpr ⟨_, filterAfter_subset _ _ hg, hh⟩
  obtain ⟨hname, hkind, hline, -⟩ := (hplaces h hmem).symbol_eq hs
  exact ⟨symbols[i], hperm.mem_iff.mpr (List.getElem_mem hi'), hname, hkind, hline⟩

namespace Braces

/-- **Types and functions**: a match for a type is reported as a type unless a function is found at its place, which is
reported instead. -/
theorem reports_kind_iff (source : Source) :
    ∃ e, Extraction.ofFamily? .generic source = some e ∧
      ∀ rule ∈ rulesOf .structOrClass, ∀ m ∈ rule.header.findAll source.code,
        ∃ name, source.nameOf? m = some name ∧
          (e.Reports .structOrClass name (source.lineAt m.span.start) ↔ ¬IsFunctionAt source m.span.start name) ∧
          (e.Reports .function name (source.lineAt m.span.start) ↔ IsFunctionAt source m.span.start name) := by
  obtain ⟨findings, e, symbols, hfindings, he, hplaces, -, hperm, hyields⟩ := Extraction.exists_kept .generic source
  obtain ⟨e', he', -, hordered⟩ := Extraction.exists_wellFormed .generic source
  cases he.symm.trans he'
  obtain ⟨functions, types, rfl, hfunctions, htypes⟩ := exists_findings_eq hfindings
  refine ⟨e, he, fun rule hrule m hm => ?_⟩
  obtain ⟨name, f, hname, hf, hplace⟩ := exists_finding_of_type hrule hm
  obtain ⟨g, hg, hplace', hcase⟩ := Finding.exists_kept_append functions ⟨f, (htypes f).mpr hf, hplace⟩
  obtain ⟨h, hh, hhplace⟩ := Option.map_eq_some_iff.mp hplace'
  have hreports : e.Reports h.kind name (source.lineAt m.span.start) := by
    have hkept := Extraction.reports_of_kept hperm hplaces hyields hg hh
    rw [Header.place, Prod.mk.injEq] at hhplace
    rwa [hhplace.1, hhplace.2] at hkept
  have hkinds : ∀ kind, e.Reports kind name (source.lineAt m.span.start) ↔ kind = h.kind := by
    intro kind
    exact ⟨fun hkind => hkind.kind_eq hreports hordered, fun hkind => hkind ▸ hreports⟩
  refine ⟨name, hname, ?_⟩
  rw [isFunctionAt_iff (mem_rulesOf_iff.mp hrule).1 hm, hkinds, hkinds]
  rcases hcase with hfirst | ⟨hsecond, hnone⟩
  · obtain ⟨rule', hrule', m', hm', hg'⟩ := (hfunctions g).mp hfirst
    have hkind : h.kind = .function := (kind_of_definitionAt? hg' hh).trans (mem_rulesOf_iff.mp hrule').2
    have hthere : ∃ f, IsFound source (rulesOf .function) f ∧
        f.place? source = some (name, source.lineAt m.span.start) := ⟨g, (hfunctions g).mp hfirst, hplace'⟩
    simp [hkind, hthere]
  · obtain ⟨rule', hrule', m', hm', hg'⟩ := (htypes g).mp hsecond
    have hkind : h.kind = .structOrClass := (kind_of_definitionAt? hg' hh).trans (mem_rulesOf_iff.mp hrule').2
    have hnot : ¬∃ f, IsFound source (rulesOf .function) f ∧
        f.place? source = some (name, source.lineAt m.span.start) := by
      rintro ⟨f', hf', hsame⟩
      exact hnone f' ((hfunctions f').mpr hf') hsame
    simp [hkind, hnot]

/-- **Types are reported as types**, unless their header is found as that of a method: a type with its keyword behind
the name is always a symbol of its kind with its name and line. A type with its keyword in front is one exactly if its
header is not also that of a method with a body, and otherwise a function is reported in its place. -/
theorem reports_type_iff (source : Source) :
    ∃ e, Extraction.ofFamily? .generic source = some e ∧
      (∀ m ∈ typeBehind.findAll source.code, ∃ name, source.nameOf? m = some name ∧
        e.Reports .structOrClass name (source.lineAt m.span.start)) ∧
      ∀ m ∈ typeKeyword.findAll source.code, ∃ name, source.nameOf? m = some name ∧
        (e.Reports .structOrClass name (source.lineAt m.span.start) ↔ ¬IsMethodAt source m.span.start name) ∧
        (e.Reports .function name (source.lineAt m.span.start) ↔ IsMethodAt source m.span.start name) := by
  obtain ⟨e, he, hall⟩ := reports_kind_iff source
  refine ⟨e, he, fun m hm => ?_, fun m hm => ?_⟩
  · obtain ⟨name, hname, htype, -⟩ := hall ⟨typeBehind, .structOrClass, .blockOrLine, false⟩
      (mem_rulesOf_iff.mpr ⟨by simp [rules], rfl⟩) m hm
    exact ⟨name, hname, htype.mpr (not_isFunctionAt_typeBehind hm name)⟩
  · obtain ⟨name, hname, htype, hfunction⟩ := hall ⟨typeKeyword, .structOrClass, .blockOrLine, false⟩
      (mem_rulesOf_iff.mpr ⟨by simp [rules], rfl⟩) m hm
    rw [isFunctionAt_typeKeyword_iff hm hname] at htype hfunction
    exact ⟨name, hname, htype, hfunction⟩

/-- A class, a type with its keyword behind its name, and a record with parameters. -/
def threeTypes : Source :=
  Source.ofText "a.java" .java
    "class Plain \x7b\n\x7d\ntype Node struct \x7b\n\x7d\nrecord Point(int x) \x7b\n\x7d\n".toList

/-- What is read off for them. -/
def threeSymbols : List Symbol :=
  [⟨"Plain", .structOrClass, "a.java", 1, 2, "class Plain", "class Plain \x7b\n\x7d"⟩,
    ⟨"Node", .structOrClass, "a.java", 3, 4, "type Node struct", "type Node struct \x7b\n\x7d"⟩,
    ⟨"Point", .function, "a.java", 5, 6, "record Point(int x)", "record Point(int x) \x7b\n\x7d"⟩]

/-- The first two are reported as types, and only the record has the header of a method. -/
theorem threeTypes_reported :
    ∃ e, Extraction.ofFamily? .generic threeTypes = some e ∧ e.symbols = threeSymbols ∧
      (∃ m ∈ typeBehind.findAll threeTypes.code, threeTypes.nameOf? m = some "Node".toList ∧
        e.Reports .structOrClass "Node".toList (threeTypes.lineAt m.span.start)) ∧
      (∃ m ∈ typeKeyword.findAll threeTypes.code, threeTypes.nameOf? m = some "Plain".toList ∧
        ¬IsMethodAt threeTypes m.span.start "Plain".toList) ∧
      ∃ m ∈ typeKeyword.findAll threeTypes.code, threeTypes.nameOf? m = some "Point".toList ∧
        IsMethodAt threeTypes m.span.start "Point".toList := by
  have hread : Extraction.ofFamily? .generic threeTypes = some ⟨threeSymbols, [], 0⟩ := by decide +kernel
  have hnode : ∃ m ∈ typeBehind.findAll threeTypes.code, threeTypes.nameOf? m = some "Node".toList := by
    decide +kernel
  have hplain : ∃ m ∈ typeKeyword.findAll threeTypes.code, threeTypes.nameOf? m = some "Plain".toList ∧
      threeTypes.lineAt m.span.start = 1 := by decide +kernel
  have hpoint : ∃ m ∈ typeKeyword.findAll threeTypes.code, threeTypes.nameOf? m = some "Point".toList ∧
      threeTypes.lineAt m.span.start = 5 := by decide +kernel
  obtain ⟨e, he, hbehind, hfront⟩ := reports_type_iff threeTypes
  cases he.symm.trans hread
  refine ⟨_, hread, rfl, ?_, ?_, ?_⟩
  · obtain ⟨m, hm, hname⟩ := hnode
    obtain ⟨name, hname', htype⟩ := hbehind m hm
    cases hname.symm.trans hname'
    exact ⟨m, hm, hname, htype⟩
  · obtain ⟨m, hm, hname, hline⟩ := hplain
    obtain ⟨name, hname', htype, -⟩ := hfront m hm
    cases hname.symm.trans hname'
    exact ⟨m, hm, hname, htype.mp ⟨_, .head _, rfl, rfl, hline.symm⟩⟩
  · obtain ⟨m, hm, hname, hline⟩ := hpoint
    obtain ⟨name, hname', -, hfunction⟩ := hfront m hm
    cases hname.symm.trans hname'
    exact ⟨m, hm, hname, hfunction.mp ⟨_, .tail _ (.tail _ (.head _)), rfl, rfl, hline.symm⟩⟩

/-- A record with two parameters. -/
def pointRecord : Source :=
  Source.ofText "a.java" .java "record Point(int x, int y) \x7b\n\x7d\n".toList

/-- What is read off for it. -/
def pointFunction : Symbol :=
  ⟨"Point", .function, "a.java", 1, 2, "record Point(int x, int y)", "record Point(int x, int y) \x7b\n\x7d"⟩

/-- The header of the record is a match for a type, but only a function is reported. -/
theorem pointRecord_reported_as_function :
    Extraction.ofFamily? .generic pointRecord = some ⟨[pointFunction], [], 0⟩ ∧
      (∃ m ∈ typeKeyword.findAll pointRecord.code, pointRecord.nameOf? m = some "Point".toList ∧
        pointRecord.lineAt m.span.start = 1) ∧
      ¬Extraction.Reports ⟨[pointFunction], [], 0⟩ .structOrClass "Point".toList 1 := by
  refine ⟨by decide +kernel, by decide +kernel, ?_⟩
  rintro ⟨s, hs, -, hkind, -⟩
  rw [List.mem_singleton.mp hs] at hkind
  cases hkind

end Braces

end CodeAtlas
