import CodeAtlas.Proofs.HeaderForms

/-!
# What the patterns of methods and types match

A match of a pattern is taken apart into the words, gaps and names of a header, with the text of its groups. The other
way round, every header of a method is found, since no match hides another line.

* `Braces.exists_methodForm_of_mem_findAll`: a match for a method is a header of a method;
* `Braces.exists_mem_findAll_of_methodForm`: every header of a method has a match;
* `Braces.exists_typeLead_of_mem_findAll`: a match for a type with its keyword in front.
-/

namespace CodeAtlas

namespace Pattern

theorem startsLine_of_endsLine {l : Text} (h : l.EndsLine) (r : Text) (m : Marks) :
    (Place.spot ⟨l, r, m⟩).startsLine = true := by
  rcases h with rfl | ⟨line, rfl⟩
  · rfl
  · simp [Place.spot, Spot.startsLine]

end Pattern

namespace Braces

open Pattern

/-! ### Methods -/

theorem spans_typeWord {l w r : Text} :
    (one (.or .asciiStart "$") ++ star (one (.or .word "$<>[],.?"))).Spans l w r ↔ w.IsTypeWord := by
  rw [append_eq_seq, spans_seq]
  constructor
  · rintro ⟨u, v, rfl, hu, hv⟩
    obtain ⟨c, rfl, hc⟩ := spans_one.mp hu
    exact ⟨c, v, rfl, by rwa [contains_start] at hc, (spans_star_one v).mp hv⟩
  · rintro ⟨c, v, rfl, hc, hv⟩
    exact ⟨[c], v, rfl, spans_one.mpr ⟨c, rfl, by rwa [contains_start]⟩, (spans_star_one v).mpr hv⟩

theorem spans_typeArguments {l w r : Text} :
    (opt (lit "<" ++ star (noneOf ">\n") ++ lit ">")).Spans l w r ↔ w.IsTypeArguments := by
  have hinner : ∀ inner : Text, (∀ c ∈ inner, (CharClass.noneOf ">\n").contains c = true) ↔
      ∀ c ∈ inner, c ≠ '>' ∧ c ≠ '\n' := by
    intro inner
    refine forall₂_congr fun c _ => ?_
    simp [CharClass.contains, CharClass.noneOf, CharClass.Item.contains]
  simp only [spans_opt, append_eq_seq, spans_seq, spans_lit, noneOf, spans_star_one, hinner]
  constructor
  · rintro (⟨_, _, rfl, ⟨_, inner, rfl, rfl, hc⟩, rfl⟩ | rfl)
    · exact .inr ⟨inner, by simp, hc⟩
    · exact .inl rfl
  · rintro (rfl | ⟨inner, rfl, hc⟩)
    · exact .inr rfl
    · exact .inl ⟨'<' :: inner, ['>'], by simp, ⟨['<'], inner, rfl, rfl, hc⟩, rfl⟩

/-- The type of a method with the space behind it, if there is one, is the second group. -/
theorem exists_type_of_reads {k k' : Place}
    (h : Reads (opt (group 2 (one (.or .asciiStart "$") ++ star (one (.or .word "$<>[],.?"))) ++ space)) k k')
    (hk : k.marks = []) :
    ∃ (type : Option Text) (w : Text), k'.before = k.before ++ w ∧ k.after = w ++ k'.after ∧
      (∀ {name u : Text}, NameForm name u → MethodForm type name (w ++ u)) ∧ (∀ word ∈ type, ∃ s, w = word ++ s) ∧
      k'.marks = match type with
        | none => []
        | some word => [(5, (k.before ++ word).size), (4, k.before.size)] := by
  cases h with
  | left h =>
    obtain ⟨k₁, hgroup, hspace⟩ := h.exists_between
    have hmarks := hgroup.group_marks (by decide)
    have hmarks' := hspace.marks_eq (by decide)
    obtain ⟨word, hbefore, hafter, hword⟩ := hgroup.exists_spans
    obtain ⟨s, hbefore', hafter', hs⟩ := hspace.exists_spans
    rw [spans_group, spans_typeWord] at hword
    refine ⟨some word, word ++ s, by rw [hbefore', hbefore, List.append_assoc],
      by rw [hafter, hafter', List.append_assoc], fun hname => ?_, ?_, ?_⟩
    · rw [List.append_assoc]
      exact .typed hword (spans_space.mp hs) hname
    · intro word' hword'
      cases hword'
      exact ⟨s, rfl⟩
    · rw [hmarks', hmarks, hk, hbefore]
  | right h =>
    cases h
    exact ⟨none, [], (List.append_nil _).symm, rfl, fun hname => .plain hname, by simp, hk⟩

/-- What stands between the name of a method and its parenthesis. -/
theorem isNameTail_of_reads {k k₁ k₂ k' : Place} (hgap : Reads gap k k₁)
    (hargs : Reads (opt (lit "<" ++ star (noneOf ">\n") ++ lit ">")) k₁ k₂) (hgap' : Reads gap k₂ k') :
    ∃ tail, k'.before = k.before ++ tail ∧ k.after = tail ++ k'.after ∧ k'.marks = k.marks ∧ tail.IsNameTail := by
  obtain ⟨g, hbefore, hafter, hg⟩ := hgap.exists_spans
  obtain ⟨args, hbefore', hafter', hspans⟩ := hargs.exists_spans
  obtain ⟨g', hbefore'', hafter'', hg'⟩ := hgap'.exists_spans
  refine ⟨g ++ (args ++ g'), ?_, ?_, ?_, g, args, g', rfl, spans_gap.mp hg, spans_typeArguments.mp hspans,
    spans_gap.mp hg'⟩
  · rw [hbefore'', hbefore', hbefore, List.append_assoc, List.append_assoc]
  · rw [hafter, hafter', hafter'', List.append_assoc, List.append_assoc]
  · rw [hgap'.marks_eq (by decide), hargs.marks_eq (by decide), hgap.marks_eq (by decide)]

/-- A match for a method is a header of a method, and its groups are the name and the type. -/
theorem exists_methodForm_of_mem_findAll {code : Text} {m : Match} (hm : m ∈ method.findAll code) :
    ∃ (l g : Text) (type : Option Text) (name u r : Text), code = l ++ (g ++ (u ++ '(' :: r)) ∧
      g.IsPadding ∧ MethodForm type name u ∧ m.span = ⟨l.size, (l ++ (g ++ u)).size + 1⟩ ∧
      (∃ span, m.group? 1 = some span ∧ code.slice? span.start span.stop = some name) ∧
      ((m.group? 2).toList.mapM fun span => code.slice? span.start span.stop) = some type.toList := by
  obtain ⟨l, r₀, l', r, hcode, hspan, hreads⟩ := finds_of_mem_findAll hm
  obtain ⟨k₈, h, hparen⟩ := (reads_numbered_iff.mp hreads).exists_between
  obtain ⟨k₇, h, hgap''⟩ := h.exists_between
  obtain ⟨k₆, h, hargs⟩ := h.exists_between
  obtain ⟨k₅, h, hgap'⟩ := h.exists_between
  obtain ⟨k₄, h, hname⟩ := h.exists_between
  obtain ⟨k₃, h, htype⟩ := h.exists_between
  obtain ⟨k₂, h, hwords⟩ := h.exists_between
  obtain ⟨k₁, hline, hgap⟩ := h.exists_between
  cases hline
  -- the parts of the header, with what is recorded on the way
  obtain ⟨g, hbefore₂, hafter₁, hg⟩ := hgap.exists_spans
  obtain ⟨words, hbefore₃, hafter₂, hrun⟩ := hwords.exists_spans
  have hmarks₃ : k₃.marks = [] := by rw [hwords.marks_eq (by decide), hgap.marks_eq (by decide)]
  obtain ⟨type, w, hbefore₄, hafter₃, hform, hword, hmarks₄⟩ := exists_type_of_reads htype hmarks₃
  obtain ⟨name, hbefore₅, hafter₄, hident⟩ := hname.exists_spans
  have hmarks₅ := hname.group_marks (by decide)
  obtain ⟨tail, hbefore₈, hafter₅, hmarks₈, htail⟩ := isNameTail_of_reads hgap' hargs hgap''
  obtain ⟨paren, hbefore, hafter₈, hparen'⟩ := hparen.exists_spans
  have hmarks := hparen.marks_eq (by decide)
  rw [spans_lit] at hparen'
  subst hparen'
  rw [spans_group, spans_dollarName] at hident
  dsimp only at hbefore₂ hafter₁ hbefore hafter₈ hmarks
  have hwordRun : words.IsWordRun methodWords := (spans_wordRun methodWords (by decide)).mp hrun
  have hmethod : MethodForm type name (words ++ (w ++ (name ++ tail))) :=
    .of_wordRun hwordRun (hform ⟨hident, tail, rfl, htail⟩)
  -- the places at which the groups start and end
  have hstart₃ : k₃.before = l ++ g ++ words := by rw [hbefore₃, hbefore₂]
  have hstart₄ : k₄.before = l ++ g ++ words ++ w := by rw [hbefore₄, hstart₃]
  have hcode' : code = l ++ (g ++ (words ++ (w ++ (name ++ (tail ++ '(' :: r))))) := by
    rw [hcode, hafter₁, hafter₂, hafter₃, hafter₄, hafter₅, hafter₈]
    rfl
  rw [hmarks₈, hmarks₅] at hmarks
  refine ⟨l, g, type, name, words ++ (w ++ (name ++ tail)), r, ?_, spans_gap.mp hg, hmethod, ?_, ?_, ?_⟩
  · rw [hcode']
    simp
  · have hsize : Text.size "(".toList = 1 := rfl
    rw [hspan, hbefore, Text.size_append, hsize, hbefore₈, hbefore₅, hstart₄]
    simp only [List.append_assoc]
  · refine ⟨⟨k₄.before.size, k₅.before.size⟩, by rw [Match.group?, hmarks]; rfl, ?_⟩
    have hcut : code = k₄.before ++ name ++ (tail ++ '(' :: r) := by rw [hcode', hstart₄]; simp
    rw [hcut, hbefore₅, Text.slice?_size]
  · cases type with
    | none =>
      have hnone : m.group? 2 = none := by rw [Match.group?, hmarks, hmarks₄]; rfl
      rw [hnone]
      rfl
    | some word =>
      have hsome : m.group? 2 = some ⟨k₃.before.size, (k₃.before ++ word).size⟩ := by
        rw [Match.group?, hmarks, hmarks₄]
        rfl
      obtain ⟨s, rfl⟩ := hword word rfl
      have hcut : code = k₃.before ++ word ++ (s ++ (name ++ (tail ++ '(' :: r))) := by rw [hcode', hstart₃]; simp
      rw [hsome, Option.toList_some, List.mapM_cons, hcut, Text.slice?_size]
      rfl

theorem MethodForm.exists_parts {type : Option Text} {name u : Text} (h : MethodForm type name u) :
    ∃ words w tail : Text, u = words ++ (w ++ (name ++ tail)) ∧ words.IsWordRun methodWords ∧
      (w = [] ∨ ∃ t s : Text, w = t ++ s ∧ t.IsTypeWord ∧ s.IsSpace) ∧ name.IsIdentifier ∧ tail.IsNameTail := by
  induction h with
  | plain h =>
    obtain ⟨hname, tail, rfl, htail⟩ := h
    exact ⟨[], [], tail, rfl, .nil, .inl rfl, hname, htail⟩
  | @typed t s _ _ htype hs h =>
    obtain ⟨hname, tail, rfl, htail⟩ := h
    exact ⟨[], t ++ s, tail, by simp, .nil, .inr ⟨t, s, rfl, htype, hs⟩, hname, htail⟩
  | @modifier word _ s _ _ hword hs _ ih =>
    obtain ⟨words, w, tail, rfl, hwords, hw, hname, htail⟩ := ih
    exact ⟨word.toList ++ (s ++ words), w, tail, by simp, .cons hword hs hwords, hw, hname, htail⟩

/-- The pattern for methods reads every header of a method at the start of a line. -/
theorem spans_method {type : Option Text} {l g name u r : Text} (hline : l.EndsLine) (hg : g.IsPadding)
    (h : MethodForm type name u) : method.Spans l (g ++ (u ++ ['('])) r := by
  obtain ⟨words, w, tail, rfl, hwords, hw, hname, g₁, args, g₂, rfl, hg₁, hargs, hg₂⟩ := h.exists_parts
  have hstretch : g ++ (words ++ (w ++ (name ++ (g₁ ++ (args ++ g₂)))) ++ ['('])
      = [] ++ g ++ words ++ w ++ name ++ g₁ ++ args ++ g₂ ++ "(".toList := by simp
  rw [hstretch, method, spans_numbered]
  refine .append (.append (.append (.append (.append (.append (.append (.append ?_ (spans_gap.mpr hg))
    ((spans_wordRun methodWords (by decide)).mpr hwords)) ?_) (spans_group.mpr (spans_dollarName.mpr hname)))
    (spans_gap.mpr hg₁)) (spans_typeArguments.mpr hargs)) (spans_gap.mpr hg₂)) (spans_lit.mpr rfl)
  · exact spans_lineStart.mpr ⟨rfl, Pattern.startsLine_of_endsLine hline _ _⟩
  · rw [spans_opt]
    rcases hw with rfl | ⟨t, s, rfl, ht, hs⟩
    · exact .inr rfl
    · exact .inl (.append (spans_group.mpr (spans_typeWord.mpr ht)) (spans_space.mpr hs))

/-- **Every header of a method has a match** that starts with its line. -/
theorem exists_mem_findAll_of_methodForm {type : Option Text} {l g name u r : Text} (hline : l.EndsLine)
    (hg : g.IsPadding) (h : MethodForm type name u) :
    ∃ m ∈ method.findAll (l ++ (g ++ (u ++ '(' :: r))), m.span.start = l.size := by
  obtain ⟨marks, hreads⟩ := (spans_method (r := r) hline hg h).exists_reads []
  have htext : g ++ (u ++ ['(']) ++ r = g ++ (u ++ '(' :: r) := by simp
  rw [htext] at hreads
  obtain ⟨m, hm⟩ := exists_matchAt?_of_reads hreads
  refine ⟨m, mem_findAll_of_matchAt? (by decide) (by decide) hm, ?_⟩
  obtain ⟨l', r', hspan, -⟩ := reads_of_matchAt? hm
  rw [hspan]

/-! ### Types -/

theorem isOptional_of_spans {word : String} {l w r : Text} (h : (opt (lit word ++ space)).Spans l w r) :
    IsOptional word w := by
  rw [spans_opt] at h
  rcases h with h | rfl
  · rw [append_eq_seq, spans_seq] at h
    obtain ⟨u, s, rfl, hu, hs⟩ := h
    rw [spans_lit] at hu
    subst hu
    exact .inr ⟨s, spans_space.mp hs, rfl⟩
  · exact .inl rfl

/-- A visibility with its space, or with a scope. -/
theorem pubScope_of_spans {l w r : Text} (h : pubScope.Spans l w r) :
    IsOptional "pub" w ∨ ∃ rest, w = "pub".toList ++ '(' :: rest := by
  rw [pubScope, spans_opt] at h
  rcases h with h | rfl
  · simp only [append_eq_seq, spans_seq, spans_lit, spans_opt] at h
    obtain ⟨_, s, rfl, ⟨_, scope, rfl, rfl, hscope⟩, hs⟩ := h
    rcases hscope with ⟨_, _, rfl, ⟨_, inner, rfl, rfl, -⟩, rfl⟩ | rfl
    · exact .inr ⟨inner ++ (")".toList ++ s), by simp⟩
    · exact .inl (.inr ⟨s, spans_space.mp hs, by simp⟩)
  · exact .inl (.inl rfl)

theorem IsOptional.isWordRun {word : String} {text : Text} (h : IsOptional word text) (hword : word ∈ leadWords) :
    text.IsWordRun leadWords := by
  rcases h with rfl | ⟨s, hs, rfl⟩
  · exact .nil
  · have hrun : Text.IsWordRun leadWords (word.toList ++ (s ++ [])) := .cons hword hs .nil
    rwa [List.append_nil] at hrun

/-- What the pattern for types reads before the name. -/
theorem typeLead_of_spans {e d v words kw s l₁ r₁ l₂ r₂ l₃ r₃ l₄ r₄ l₅ r₅ l₆ r₆ : Text}
    (he : (opt (lit "export" ++ space)).Spans l₁ e r₁) (hd : (opt (lit "default" ++ space)).Spans l₂ d r₂)
    (hv : pubScope.Spans l₃ v r₃) (hwords : (star (anyOf typeModifiers ++ space)).Spans l₄ words r₄)
    (hkw : (anyOf typeWords).Spans l₅ kw r₅) (hs : space.Spans l₆ s r₆) :
    TypeLead (e ++ (d ++ (v ++ (words ++ (kw ++ s))))) := by
  obtain ⟨keyword, hkeyword, rfl⟩ := (spans_anyOf typeWords (by decide)).mp hkw
  have he' := isOptional_of_spans he
  have hd' := isOptional_of_spans hd
  have hrun : words.IsWordRun leadWords :=
    ((spans_wordRun typeModifiers (by decide)).mp hwords).mono (List.subset_append_right _ _)
  rcases pubScope_of_spans hv with hv' | ⟨rest, rfl⟩
  · have hlead : Text.IsWordRun leadWords (e ++ (d ++ (v ++ words))) :=
      (he'.isWordRun (by decide)).append ((hd'.isWordRun (by decide)).append
        ((hv'.isWordRun (by decide)).append hrun))
    have htext : e ++ (d ++ (v ++ (words ++ (keyword.toList ++ s))))
        = e ++ (d ++ (v ++ words)) ++ (keyword.toList ++ s) := by simp
    rw [htext]
    exact .words hlead hkeyword (spans_space.mp hs)
  · have htext : e ++ (d ++ ("pub".toList ++ '(' :: rest ++ (words ++ (keyword.toList ++ s))))
        = e ++ (d ++ ("pub".toList ++ '(' :: (rest ++ (words ++ (keyword.toList ++ s))))) := by simp
    rw [htext]
    exact .scope he' hd'

/-- A match for a type with its keyword in front: the header starts with a line, and the group is the name. -/
theorem exists_typeLead_of_mem_findAll {code : Text} {m : Match} (hm : m ∈ typeKeyword.findAll code) :
    ∃ l g lead name rest : Text, code = l ++ (g ++ (lead ++ (name ++ rest))) ∧ l.EndsLine ∧ g.IsPadding ∧
      TypeLead lead ∧ name.IsIdentifier ∧ m.span.start = l.size ∧
      ∃ span, m.group? 1 = some span ∧ code.slice? span.start span.stop = some name := by
  obtain ⟨l, r₀, l', r, hcode, hspan, hreads⟩ := finds_of_mem_findAll hm
  obtain ⟨k₈, h, hname⟩ := (reads_numbered_iff.mp hreads).exists_between
  obtain ⟨k₇, h, hspace⟩ := h.exists_between
  obtain ⟨k₆, h, hkeyword⟩ := h.exists_between
  obtain ⟨k₅, h, hwords⟩ := h.exists_between
  obtain ⟨k₄, h, hscope⟩ := h.exists_between
  obtain ⟨k₃, h, hdefault⟩ := h.exists_between
  obtain ⟨k₂, h, hexport⟩ := h.exists_between
  obtain ⟨k₁, hline, hgap⟩ := h.exists_between
  cases hline with
  | lineStart hline =>
    obtain ⟨g, hbefore₂, hafter₁, hg⟩ := hgap.exists_spans
    obtain ⟨e, hbefore₃, hafter₂, he⟩ := hexport.exists_spans
    obtain ⟨d, hbefore₄, hafter₃, hd⟩ := hdefault.exists_spans
    obtain ⟨v, hbefore₅, hafter₄, hv⟩ := hscope.exists_spans
    obtain ⟨words, hbefore₆, hafter₅, hrun⟩ := hwords.exists_spans
    obtain ⟨kw, hbefore₇, hafter₆, hkw⟩ := hkeyword.exists_spans
    obtain ⟨s, hbefore₈, hafter₇, hs⟩ := hspace.exists_spans
    obtain ⟨name, hbefore, hafter₈, hident⟩ := hname.exists_spans
    have hmarks := hname.group_marks (by decide)
    rw [spans_group, spans_dollarName] at hident
    dsimp only at hbefore₂ hafter₁ hbefore hafter₈ hmarks
    have hlead := typeLead_of_spans he hd hv hrun hkw hs
    have hcode' : code = k₈.before ++ name ++ r := by
      rw [hcode, hafter₁, hafter₂, hafter₃, hafter₄, hafter₅, hafter₆, hafter₇, hafter₈, hbefore₈, hbefore₇, hbefore₆,
        hbefore₅, hbefore₄, hbefore₃, hbefore₂]
      simp
    have hstart : k₈.before = l ++ (g ++ (e ++ (d ++ (v ++ (words ++ (kw ++ s)))))) := by
      rw [hbefore₈, hbefore₇, hbefore₆, hbefore₅, hbefore₄, hbefore₃, hbefore₂]
      simp
    refine ⟨l, g, _, name, r, ?_, Text.endsLine_of_startsLine hline, spans_gap.mp hg, hlead, hident, by rw [hspan],
      ⟨k₈.before.size, l'.size⟩, by rw [Match.group?, hmarks]; rfl, ?_⟩
    · rw [hcode', hstart]
      simp
    · rw [hcode', hbefore, Text.slice?_size]

end Braces

end CodeAtlas
