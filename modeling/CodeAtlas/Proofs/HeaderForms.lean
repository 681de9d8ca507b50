import CodeAtlas.Proofs.PatternForms

/-!
# Headers of methods and of types

The header of a method is read as modifiers, possibly a type, a name and an opening parenthesis, and the keyword of a
type can stand in the place of that type. This file takes the headers of methods and of types apart into words, and
says which headers are both.

* `Braces.MethodForm`: the header of a method up to its parenthesis;
* `Braces.TypeLead`: what stands before the name of a type;
* `Braces.HeadsMethod`: the headers of types that are headers of methods too;
* `Braces.MethodForm.of_typeLead`: there are no others.
-/

namespace CodeAtlas

/-! ### Between a name and its parenthesis -/

namespace Text

/-- Whether a character can stand in the type of a method behind its first character. -/
def isTypePart (c : Char) : Bool :=
  (CharClass.or .word "$<>[],.?").contains c

/-- The text is a type as it is written before the name of a method. -/
def IsTypeWord (text : Text) : Prop :=
  ∃ c tail, text = c :: tail ∧ isIdentifierStart c = true ∧ ∀ d ∈ tail, isTypePart d = true

/-- The text is empty or made of type arguments. -/
def IsTypeArguments (text : Text) : Prop :=
  text = [] ∨ ∃ inner, text = '<' :: (inner ++ ['>']) ∧ ∀ c ∈ inner, c ≠ '>' ∧ c ≠ '\n'

/-- The text can stand between the name of a method and its parenthesis: type arguments with padding around them. -/
def IsNameTail (text : Text) : Prop :=
  ∃ g args g', text = g ++ (args ++ g') ∧ g.IsPadding ∧ args.IsTypeArguments ∧ g'.IsPadding

/-- The first character of the text can start an identifier. -/
def StartsName (text : Text) : Prop :=
  ∃ c, text.head? = some c ∧ isIdentifierStart c = true

theorem isTypePart_of_isIdentifierPart {c : Char} (h : isIdentifierPart c = true) : isTypePart c = true := by
  rw [isIdentifierPart, Bool.or_eq_true, beq_iff_eq] at h
  rcases h with h | rfl
  · simp [isTypePart, CharClass.contains, CharClass.or, CharClass.word, CharClass.Item.contains, h]
  · decide

theorem IsIdentifier.parts {word : Text} (h : word.IsIdentifier) : ∀ c ∈ word, isIdentifierPart c = true := by
  obtain ⟨c, tail, rfl, hc, htail⟩ := h
  intro d hd
  rcases List.mem_cons.mp hd with rfl | hd
  · exact isIdentifierPart_of_isIdentifierStart hc
  · exact htail d hd

theorem IsTypeWord.parts {word : Text} (h : word.IsTypeWord) : ∀ c ∈ word, isTypePart c = true := by
  obtain ⟨c, tail, rfl, hc, htail⟩ := h
  intro d hd
  rcases List.mem_cons.mp hd with rfl | hd
  · exact isTypePart_of_isIdentifierPart (isIdentifierPart_of_isIdentifierStart hc)
  · exact htail d hd

theorem IsIdentifier.startsName {word : Text} (h : word.IsIdentifier) (rest : Text) : StartsName (word ++ rest) := by
  obtain ⟨c, tail, rfl, hc, -⟩ := h
  exact ⟨c, rfl, hc⟩

/-- Behind padding comes another character. -/
def StartsSolid (text : Text) : Prop :=
  ∀ c, text.head? = some c → (c == ' ' || c == '\t') = false

theorem StartsName.startsSolid {text : Text} (h : text.StartsName) : text.StartsSolid := by
  obtain ⟨c, hhead, hc⟩ := h
  intro d hd
  obtain rfl : c = d := Option.some.inj (hhead.symm.trans hd)
  rw [Bool.or_eq_false_iff, beq_eq_false_iff_ne, beq_eq_false_iff_ne]
  constructor
  all_goals
    rintro rfl
    exact absurd hc (by decide)

/-- Padding is cut off in one way only. -/
theorem IsPadding.append_inj {g g' t t' : Text} (hg : g.IsPadding) (hg' : g'.IsPadding) (ht : t.StartsSolid)
    (ht' : t'.StartsSolid) (h : g ++ t = g' ++ t') : g = g' ∧ t = t' := by
  have hbool : ∀ {g : Text}, g.IsPadding → ∀ c ∈ g, (c == ' ' || c == '\t') = true := by
    intro g hg c hc
    rw [Bool.or_eq_true, beq_iff_eq, beq_iff_eq]
    exact hg c hc
  exact append_inj_of_all (hbool hg) (hbool hg') ht ht' h

theorem IsPadding.append {g g' : Text} (hg : g.IsPadding) (hg' : g'.IsPadding) : IsPadding (g ++ g') := by
  intro c hc
  rcases List.mem_append.mp hc with hc | hc
  · exact hg c hc
  · exact hg' c hc

/-- Behind a word that a space follows, neither an identifier nor a type goes on. -/
theorem IsSpace.head {s rest : Text} (hs : s.IsSpace) {c : Char} (hc : (s ++ rest).head? = some c) :
    isIdentifierPart c = false ∧ isTypePart c = false := by
  obtain ⟨d, s, rfl⟩ := List.exists_cons_of_ne_nil hs.1
  cases hc
  rcases hs.2 c List.mem_cons_self with rfl | rfl
  all_goals decide

/-- Padding, and then type arguments or the parenthesis. -/
theorem IsNameTail.exists_padding {tail : Text} (h : tail.IsNameTail) (r : Text) :
    ∃ g rest, tail ++ '(' :: r = g ++ rest ∧ g.IsPadding ∧ (rest.head? = some '<' ∨ rest.head? = some '(') := by
  obtain ⟨g, args, g', rfl, hg, hargs, hg'⟩ := h
  rcases hargs with rfl | ⟨inner, rfl, -⟩
  · exact ⟨g ++ g', '(' :: r, by simp, hg.append hg', .inr rfl⟩
  · exact ⟨g, '<' :: (inner ++ ['>'] ++ g' ++ '(' :: r), by simp, hg, .inl rfl⟩

theorem startsSolid_of_head {rest : Text} (h : rest.head? = some '<' ∨ rest.head? = some '(') : rest.StartsSolid := by
  intro c hc
  rcases h with h | h
  all_goals
    obtain rfl := Option.some.inj (h.symm.trans hc)
    decide

theorem not_startsName_of_head {rest : Text} (h : rest.head? = some '<' ∨ rest.head? = some '(') :
    ¬rest.StartsName := by
  rintro ⟨c, hc, hstart⟩
  rcases h with h | h
  all_goals
    obtain rfl := Option.some.inj (h.symm.trans hc)
    exact absurd hstart (by decide)

/-- Behind a name there is no second name before the parenthesis. -/
theorem IsNameTail.not_padding {tail r s t : Text} (h : tail.IsNameTail) (hs : s.IsPadding) (ht : t.StartsName) :
    tail ++ '(' :: r ≠ s ++ t := by
  intro heq
  obtain ⟨g, rest, hrest, hg, hhead⟩ := h.exists_padding r
  obtain ⟨-, rfl⟩ := hg.append_inj hs (startsSolid_of_head hhead) ht.startsSolid (hrest.symm.trans heq)
  exact not_startsName_of_head hhead ht

/-- A name ends where its parenthesis or type arguments come. -/
theorem IsNameTail.startsApart {tail : Text} (h : tail.IsNameTail) (r : Text) : StartsApart (tail ++ '(' :: r) := by
  obtain ⟨g, rest, hrest, hg, hhead⟩ := h.exists_padding r
  rw [hrest]
  intro c hc
  cases g with
  | nil =>
    rcases hhead with hhead | hhead
    all_goals
      obtain rfl := Option.some.inj (hhead.symm.trans hc)
      decide
  | cons d g =>
    cases hc
    rcases hg c List.mem_cons_self with rfl | rfl
    all_goals decide

/-- The parenthesis behind a name is found in one way only. -/
theorem IsNameTail.append_inj {tail tail' r r' : Text} (h : tail.IsNameTail) (h' : tail'.IsNameTail)
    (heq : tail ++ '(' :: r = tail' ++ '(' :: r') : tail = tail' := by
  have hparen : ∀ {rest : Text}, StartsSolid ('(' :: rest) := fun {rest} => startsSolid_of_head (.inr rfl)
  have hangle : ∀ {rest : Text}, StartsSolid ('<' :: rest) := fun {rest} => startsSolid_of_head (.inl rfl)
  obtain ⟨g, args, e, rfl, hg, hargs, he⟩ := h
  obtain ⟨g', args', e', rfl, hg', hargs', he'⟩ := h'
  rcases hargs with rfl | ⟨inner, rfl, hinner⟩
  · rcases hargs' with rfl | ⟨inner', rfl, hinner'⟩
    · rw [List.nil_append, List.nil_append] at heq ⊢
      exact ((hg.append he).append_inj (hg'.append he') hparen hparen heq).1
    · have hcut : g ++ e ++ '(' :: r = g' ++ '<' :: (inner' ++ ['>'] ++ e' ++ '(' :: r') := by simpa using heq
      obtain ⟨-, hhead⟩ := (hg.append he).append_inj hg' hparen hangle hcut
      cases hhead
  · rcases hargs' with rfl | ⟨inner', rfl, hinner'⟩
    · have hcut : g ++ '<' :: (inner ++ ['>'] ++ e ++ '(' :: r) = g' ++ e' ++ '(' :: r' := by simpa using heq
      obtain ⟨-, hhead⟩ := hg.append_inj (hg'.append he') hangle hparen hcut
      cases hhead
    · have hcut : g ++ '<' :: (inner ++ '>' :: (e ++ '(' :: r))
          = g' ++ '<' :: (inner' ++ '>' :: (e' ++ '(' :: r')) := by simpa using heq
      obtain ⟨rfl, hbehind⟩ := hg.append_inj hg' hangle hangle hcut
      obtain ⟨rfl, hbehind'⟩ := append_cons_inj_of_not_mem (fun hmem => (hinner _ hmem).1 rfl)
        (fun hmem => (hinner' _ hmem).1 rfl) (List.cons.inj hbehind).2
      obtain ⟨rfl, -⟩ := he.append_inj he' hparen hparen hbehind'
      rfl

end Text

/-! ### The words of headers -/

namespace Braces

/-- The words that may stand before a method. -/
def methodWords : List String :=
  ["public", "private", "protected", "internal", "static", "final", "abstract", "synchronized", "native", "async",
    "override", "readonly", "virtual", "default"]

/-- The modifiers of a type. -/
def typeModifiers : List String :=
  ["public", "private", "protected", "internal", "static", "final", "abstract", "sealed", "declare"]

/-- The words that may stand before the keyword of a type. -/
def leadWords : List String :=
  ["export", "default", "pub"] ++ typeModifiers

/-- The keywords of types that stand before the name. -/
def typeWords : List String :=
  ["class", "interface", "struct", "enum", "trait", "record"]

/-- Each of these words is an identifier. -/
theorem isIdentifier_of_mem {word : String} (h : word ∈ methodWords ++ leadWords ++ typeWords) :
    Text.IsIdentifier word.toList := by
  have hall : ∀ word ∈ methodWords ++ leadWords ++ typeWords,
      (word.toList.head?.any isIdentifierStart && word.toList.all isIdentifierPart) = true := by decide
  have hword := hall word h
  rw [Bool.and_eq_true] at hword
  cases hlist : word.toList with
  | nil => rw [hlist] at hword; cases hword.1
  | cons c tail =>
    rw [hlist, List.head?_cons, Option.any_some, List.all_cons, Bool.and_eq_true, List.all_eq_true] at hword
    exact ⟨c, tail, rfl, hword.1, hword.2.2⟩

theorem isIdentifier_methodWord {word : String} (h : word ∈ methodWords) : Text.IsIdentifier word.toList :=
  isIdentifier_of_mem (List.mem_append_left _ (List.mem_append_left _ h))

theorem isIdentifier_leadWord {word : String} (h : word ∈ leadWords) : Text.IsIdentifier word.toList :=
  isIdentifier_of_mem (List.mem_append_left _ (List.mem_append_right _ h))

theorem isIdentifier_typeWord {word : String} (h : word ∈ typeWords) : Text.IsIdentifier word.toList :=
  isIdentifier_of_mem (List.mem_append_right _ h)

/-! ### The header of a method -/

/-- A name and what stands between it and its parenthesis. -/
structure NameForm (name u : Text) : Prop where
  isIdentifier : name.IsIdentifier
  exists_tail : ∃ tail, u = name ++ tail ∧ tail.IsNameTail

/-- The header of a method up to its parenthesis: modifiers, possibly a type, and the name. -/
inductive MethodForm : Option Text → Text → Text → Prop
  | plain {name u : Text} (h : NameForm name u) : MethodForm none name u
  | typed {type s name u : Text} (htype : type.IsTypeWord) (hs : s.IsSpace) (h : NameForm name u) :
      MethodForm (some type) name (type ++ (s ++ u))
  | modifier {word : String} {type : Option Text} {s name u : Text} (hword : word ∈ methodWords) (hs : s.IsSpace)
      (h : MethodForm type name u) : MethodForm type name (word.toList ++ (s ++ u))

theorem NameForm.startsName {name u : Text} (h : NameForm name u) (rest : Text) : Text.StartsName (u ++ rest) := by
  obtain ⟨hname, tail, rfl, -⟩ := h
  rw [List.append_assoc]
  exact hname.startsName _

theorem MethodForm.startsName {type : Option Text} {name u : Text} (h : MethodForm type name u) (rest : Text) :
    Text.StartsName (u ++ rest) := by
  cases h with
  | plain h => exact h.startsName rest
  | typed htype _ _ =>
    obtain ⟨c, tail, rfl, hc, -⟩ := htype
    exact ⟨c, rfl, hc⟩
  | modifier hword _ _ =>
    rw [List.append_assoc]
    exact (isIdentifier_methodWord hword).startsName _

/-- A word with another one behind it is no name with a parenthesis. -/
theorem NameForm.not_word {name u r word s t : Text} (h : NameForm name u) (hword : word.IsIdentifier)
    (hs : s.IsSpace) (ht : t.StartsName) : u ++ '(' :: r ≠ word ++ (s ++ t) := by
  intro heq
  obtain ⟨hname, tail, rfl, htail⟩ := h
  rw [List.append_assoc] at heq
  obtain ⟨-, hbehind⟩ := append_inj_of_all hname.parts hword.parts (htail.startsApart r)
    (fun c hc => (hs.head hc).1) heq
  exact htail.not_padding hs.2 ht hbehind

/-- **One word**: if a header of a method starts with a word and another one follows, the word is a modifier or the
type, and the header goes on behind it. -/
theorem MethodForm.step {type : Option Text} {name u r word s t : Text} (h : MethodForm type name u)
    (hword : word.IsIdentifier) (hs : s.IsSpace) (ht : t.StartsName) (heq : u ++ '(' :: r = word ++ (s ++ t)) :
    ∃ u', u = word ++ (s ++ u') ∧ u' ++ '(' :: r = t ∧
      ((∃ w ∈ methodWords, word = w.toList) ∧ MethodForm type name u' ∨ type = some word ∧ NameForm name u') := by
  cases h with
  | plain h => exact absurd heq (h.not_word hword hs ht)
  | @typed type s' name u' htype hs' h =>
    rw [List.append_assoc, List.append_assoc] at heq
    obtain ⟨rfl, hbehind⟩ := append_inj_of_all htype.parts
      (fun c hc => Text.isTypePart_of_isIdentifierPart (hword.parts c hc)) (fun c hc => (hs'.head hc).2)
      (fun c hc => (hs.head hc).2) heq
    obtain ⟨rfl, hbehind'⟩ := hs'.2.append_inj hs.2 (h.startsName _).startsSolid ht.startsSolid hbehind
    exact ⟨u', rfl, hbehind', .inr ⟨rfl, h⟩⟩
  | @modifier w type s' name u' hmem hs' h =>
    rw [List.append_assoc, List.append_assoc] at heq
    obtain ⟨rfl, hbehind⟩ := append_inj_of_all (isIdentifier_methodWord hmem).parts hword.parts
      (fun c hc => (hs'.head hc).1) (fun c hc => (hs.head hc).1) heq
    obtain ⟨rfl, hbehind'⟩ := hs'.2.append_inj hs.2 (h.startsName _).startsSolid ht.startsSolid hbehind
    exact ⟨u', rfl, hbehind', .inl ⟨⟨w, hmem, rfl⟩, h⟩⟩

/-- A name whose parenthesis follows at once. -/
theorem NameForm.of_paren {name u r word t : Text} (h : NameForm name u) (hword : word.IsIdentifier)
    (heq : u ++ '(' :: r = word ++ '(' :: t) : name = word ∧ u = word := by
  obtain ⟨hname, tail, rfl, htail⟩ := h
  have hapart : Text.StartsApart ('(' :: t) := by
    intro c hc
    cases hc
    decide
  have hnil : Text.IsNameTail [] := ⟨[], [], [], rfl, by simp [Text.IsPadding], .inl rfl, by simp [Text.IsPadding]⟩
  rw [List.append_assoc] at heq
  obtain ⟨rfl, hbehind⟩ := append_inj_of_all hname.parts hword.parts (htail.startsApart r) hapart heq
  obtain rfl := htail.append_inj hnil hbehind
  exact ⟨rfl, List.append_nil _⟩

/-- **The last word**: a header of a method that starts with a word and its parenthesis is that word. -/
theorem MethodForm.of_paren {type : Option Text} {name u r word t : Text} (h : MethodForm type name u)
    (hword : word.IsIdentifier) (heq : u ++ '(' :: r = word ++ '(' :: t) : type = none ∧ name = word ∧ u = word := by
  -- a type or a modifier would have a space behind it
  have hspace : ∀ {s rest : Text}, s.IsSpace → s ++ rest ≠ '(' :: t := by
    intro s rest hs hcut
    obtain ⟨c, s, rfl⟩ := List.exists_cons_of_ne_nil hs.1
    cases hcut
    rcases hs.2 '(' List.mem_cons_self with hc | hc
    all_goals cases hc
  have hhead : ∀ c, List.head? ('(' :: t) = some c → isIdentifierPart c = false ∧ Text.isTypePart c = false := by
    intro c hc
    cases hc
    decide
  cases h with
  | plain h => exact ⟨rfl, h.of_paren hword heq⟩
  | typed htype hs h =>
    rw [List.append_assoc, List.append_assoc] at heq
    obtain ⟨-, hbehind⟩ := append_inj_of_all htype.parts
      (fun c hc => Text.isTypePart_of_isIdentifierPart (hword.parts c hc)) (fun c hc => (hs.head hc).2)
      (fun c hc => (hhead c hc).2) heq
    exact absurd hbehind (hspace hs)
  | modifier hmem hs h =>
    rw [List.append_assoc, List.append_assoc] at heq
    obtain ⟨-, hbehind⟩ := append_inj_of_all (isIdentifier_methodWord hmem).parts hword.parts
      (fun c hc => (hs.head hc).1) (fun c hc => (hhead c hc).1) heq
    exact absurd hbehind (hspace hs)

/-! ### Headers of types that are headers of methods -/

/-- The text is empty, or a word with a space behind it. -/
def IsOptional (word : String) (text : Text) : Prop :=
  text = [] ∨ ∃ s : Text, s.IsSpace ∧ text = word.toList ++ s

/-- What stands before the name of a type: words and the keyword, or the scope of a visibility and what is behind it. -/
inductive TypeLead : Text → Prop
  | words {words s : Text} {keyword : String} (hwords : words.IsWordRun leadWords) (hkeyword : keyword ∈ typeWords)
      (hs : s.IsSpace) : TypeLead (words ++ (keyword.toList ++ s))
  | scope {e d rest : Text} (he : IsOptional "export" e) (hd : IsOptional "default" d) :
      TypeLead (e ++ (d ++ ("pub".toList ++ '(' :: rest)))

theorem isWordRun_startsName {words t : Text} (h : words.IsWordRun leadWords) (ht : t.StartsName) :
    Text.StartsName (words ++ t) := by
  cases h with
  | nil => exact ht
  | cons hword _ _ =>
    rw [List.append_assoc, List.append_assoc]
    exact (isIdentifier_leadWord hword).startsName _

theorem IsOptional.startsName {word : String} {text t : Text} (h : IsOptional word text) (hword : word ∈ leadWords)
    (ht : t.StartsName) : Text.StartsName (text ++ t) := by
  rcases h with rfl | ⟨s, -, rfl⟩
  · exact ht
  · rw [List.append_assoc]
    exact (isIdentifier_leadWord hword).startsName _

theorem TypeLead.startsName {lead : Text} (h : TypeLead lead) (rest : Text) : Text.StartsName (lead ++ rest) := by
  cases h with
  | words hwords hkeyword _ =>
    rw [List.append_assoc, List.append_assoc]
    exact isWordRun_startsName hwords ((isIdentifier_typeWord hkeyword).startsName _)
  | scope he hd =>
    have hpub : Text.IsIdentifier "pub".toList := isIdentifier_leadWord (by decide)
    rw [List.append_assoc, List.append_assoc, List.append_assoc]
    exact he.startsName (by decide) (hd.startsName (by decide) (hpub.startsName _))

/-- A header of a method that goes through words and a keyword. -/
theorem MethodForm.of_words {type : Option Text} {name r words s t : Text} {keyword : String}
    (hwords : words.IsWordRun leadWords) (hkeyword : keyword ∈ typeWords) (hs : s.IsSpace) (ht : t.StartsName) :
    ∀ {u : Text}, MethodForm type name u → u ++ '(' :: r = words ++ (keyword.toList ++ (s ++ t)) →
      words.IsWordRun methodWords ∧ type = some keyword.toList ∧
        ∃ u', u = words ++ (keyword.toList ++ (s ++ u')) ∧ NameForm name u' ∧ u' ++ '(' :: r = t := by
  have hkeyword' := isIdentifier_typeWord hkeyword
  have hnot : ∀ word ∈ typeWords, word ∉ methodWords := by decide
  induction hwords with
  | nil =>
    intro u h heq
    obtain ⟨u', rfl, ht', ⟨⟨w, hw, hsame⟩, -⟩ | ⟨rfl, hform⟩⟩ := h.step hkeyword' hs ht heq
    · rw [String.toList_inj.mp hsame] at hkeyword
      exact absurd hw (hnot w hkeyword)
    · exact ⟨.nil, rfl, u', rfl, hform, ht'⟩
  | @cons word s' rest hword hs' hrest ih =>
    intro u h heq
    have hword' := isIdentifier_leadWord hword
    -- another word follows in any case, with a space behind it
    have hnext : ∃ w s'' t' : Text, w.IsIdentifier ∧ s''.IsSpace ∧ t'.StartsName ∧
        rest ++ (keyword.toList ++ (s ++ t)) = w ++ (s'' ++ t') := by
      cases hrest with
      | nil => exact ⟨keyword.toList, s, t, hkeyword', hs, ht, rfl⟩
      | @cons w s'' rest hw hs'' hrest =>
        exact ⟨w.toList, s'', rest ++ (keyword.toList ++ (s ++ t)), isIdentifier_leadWord hw, hs'',
          isWordRun_startsName hrest (hkeyword'.startsName _), by simp⟩
    obtain ⟨w, s'', t', hw, hs'', ht', hsplit⟩ := hnext
    have hstarts : Text.StartsName (rest ++ (keyword.toList ++ (s ++ t))) := by
      rw [hsplit]
      exact hw.startsName _
    obtain ⟨u', rfl, hrest', ⟨⟨v, hv, hsame⟩, hform⟩ | ⟨-, hform⟩⟩ :=
      h.step hword' hs' hstarts (by rw [heq]; simp)
    · obtain ⟨hrun, htype, u'', rfl, hname, hu''⟩ := ih hform hrest'
      rw [String.toList_inj.mp hsame]
      exact ⟨.cons hv hs' hrun, htype, u'', by simp, hname, hu''⟩
    · exact absurd (hrest'.trans hsplit) (hform.not_word hw hs'' ht')

/-- A header of a method that comes to the scope of a visibility: the visibility is its name, with at most one word
before it. -/
theorem MethodForm.of_scope {type : Option Text} {name u r e d rest : Text} (h : MethodForm type name u)
    (he : IsOptional "export" e) (hd : IsOptional "default" d)
    (heq : u ++ '(' :: r = e ++ (d ++ ("pub".toList ++ '(' :: rest))) :
    name = "pub".toList ∧ u = e ++ (d ++ name) ∧ (e = [] ∨ d = []) ∧
      ∀ word ∈ type, word = "export".toList ∨ word = "default".toList := by
  have hexport : Text.IsIdentifier "export".toList := isIdentifier_leadWord (by decide)
  have hdefault : Text.IsIdentifier "default".toList := isIdentifier_leadWord (by decide)
  have hpub : Text.IsIdentifier "pub".toList := isIdentifier_leadWord (by decide)
  have hstarts : Text.StartsName ("pub".toList ++ '(' :: rest) := hpub.startsName _
  rcases he with rfl | ⟨s, hs, rfl⟩
  · rcases hd with rfl | ⟨s', hs', rfl⟩
    · obtain ⟨rfl, rfl, rfl⟩ := h.of_paren hpub heq
      exact ⟨rfl, rfl, .inl rfl, by simp⟩
    · rw [List.nil_append, List.append_assoc] at heq
      obtain ⟨u', rfl, hu', ⟨-, hform⟩ | ⟨rfl, hform⟩⟩ := h.step hdefault hs' hstarts heq
      · obtain ⟨rfl, rfl, rfl⟩ := hform.of_paren hpub hu'
        exact ⟨rfl, by simp, .inl rfl, by simp⟩
      · obtain ⟨rfl, rfl⟩ := hform.of_paren hpub hu'
        exact ⟨rfl, by simp, .inl rfl, by simp⟩
  · have hnot : ¬∃ w ∈ methodWords, "export".toList = w.toList := by decide
    rcases hd with rfl | ⟨s', hs', rfl⟩
    · rw [List.nil_append, List.append_assoc] at heq
      obtain ⟨u', rfl, hu', ⟨hmem, -⟩ | ⟨rfl, hform⟩⟩ := h.step hexport hs hstarts heq
      · exact absurd hmem hnot
      · obtain ⟨rfl, rfl⟩ := hform.of_paren hpub hu'
        exact ⟨rfl, by simp, .inr rfl, by simp⟩
    · -- of two words before the visibility, the second one would be the name
      rw [List.append_assoc, List.append_assoc] at heq
      obtain ⟨u', rfl, hu', ⟨hmem, -⟩ | ⟨-, hform⟩⟩ := h.step hexport hs (hdefault.startsName _) heq
      · exact absurd hmem hnot
      · exact absurd hu' (hform.not_word hdefault hs' hstarts)

/-- The header of a type, up to a parenthesis, that is the header of a method under the same name: only modifiers of
methods come before the keyword, and the parenthesis follows the name; or the type has the name of a visibility, and
the parenthesis is that of its scope. -/
inductive HeadsMethod (name : Text) : Text → Prop
  | keyword {words s tail : Text} {keyword : String} (hwords : words.IsWordRun methodWords)
      (hkeyword : keyword ∈ typeWords) (hs : s.IsSpace) (htail : tail.IsNameTail) :
      HeadsMethod name (words ++ (keyword.toList ++ (s ++ (name ++ tail))))
  | scope {e d : Text} (hname : name = "pub".toList) (he : IsOptional "export" e) (hd : IsOptional "default" d)
      (hone : e = [] ∨ d = []) : HeadsMethod name (e ++ (d ++ name))

section Overlap

variable {type : Option Text} {name u r lead typeName rest : Text}

/-- **Headers of both**: where the header of a type can be read as that of a method, it is one of these. -/
theorem MethodForm.of_typeLead (h : MethodForm type name u) (hlead : TypeLead lead)
    (hname : typeName.IsIdentifier) (heq : u ++ '(' :: r = lead ++ (typeName ++ rest)) :
    HeadsMethod name u ∧ ∀ word ∈ type, isRefused word = false := by
  cases hlead with
  | @words words s keyword hwords hkeyword hs =>
    rw [List.append_assoc, List.append_assoc] at heq
    obtain ⟨hrun, rfl, u', rfl, ⟨-, tail, rfl, htail⟩, -⟩ := h.of_words hwords hkeyword hs (hname.startsName _) heq
    have hfree : ∀ keyword ∈ typeWords, isRefused keyword.toList = false := by decide
    refine ⟨.keyword hrun hkeyword hs htail, ?_⟩
    intro word hword
    cases hword
    exact hfree keyword hkeyword
  | @scope e d rest' he hd =>
    have hcut : u ++ '(' :: r = e ++ (d ++ ("pub".toList ++ '(' :: (rest' ++ (typeName ++ rest)))) := by simpa using heq
    obtain ⟨hpub, hu, hone, htype⟩ := h.of_scope he hd hcut
    rw [hu]
    refine ⟨.scope hpub he hd hone, ?_⟩
    intro word hword
    rcases htype word hword with rfl | rfl
    all_goals decide

/-- The header of a type can be read as that of a method in one way only. -/
theorem MethodForm.unique {type' : Option Text} {name' u' r' : Text} (h : MethodForm type name u)
    (h' : MethodForm type' name' u') (hlead : TypeLead lead) (hname : typeName.IsIdentifier)
    (heq : u ++ '(' :: r = lead ++ (typeName ++ rest))
    (heq' : u' ++ '(' :: r' = lead ++ (typeName ++ rest)) : name = name' ∧ u = u' := by
  cases hlead with
  | @words words s keyword hwords hkeyword hs =>
    rw [List.append_assoc, List.append_assoc] at heq heq'
    obtain ⟨-, -, v, rfl, ⟨hident, tail, rfl, htail⟩, hv⟩ := h.of_words hwords hkeyword hs (hname.startsName _) heq
    obtain ⟨-, -, v', rfl, ⟨hident', tail', rfl, htail'⟩, hv'⟩ :=
      h'.of_words hwords hkeyword hs (hname.startsName _) heq'
    have hsame := hv.trans hv'.symm
    rw [List.append_assoc, List.append_assoc] at hsame
    obtain ⟨rfl, hbehind⟩ := append_inj_of_all hident.parts hident'.parts (htail.startsApart r)
      (htail'.startsApart r') hsame
    rw [htail.append_inj htail' hbehind]
    exact ⟨rfl, rfl⟩
  | @scope e d rest' he hd =>
    have hcut : u ++ '(' :: r = e ++ (d ++ ("pub".toList ++ '(' :: (rest' ++ (typeName ++ rest)))) := by simpa using heq
    have hcut' : u' ++ '(' :: r' = e ++ (d ++ ("pub".toList ++ '(' :: (rest' ++ (typeName ++ rest)))) := by
      simpa using heq'
    obtain ⟨hpub, hu, -⟩ := h.of_scope he hd hcut
    obtain ⟨hpub', hu', -⟩ := h'.of_scope he hd hcut'
    rw [hu, hu', hpub, hpub']
    exact ⟨rfl, rfl⟩

end Overlap

theorem isTypeWord_of_isIdentifier {word : Text} (h : word.IsIdentifier) : word.IsTypeWord := by
  obtain ⟨c, tail, rfl, hc, htail⟩ := h
  exact ⟨c, tail, rfl, hc, fun d hd => Text.isTypePart_of_isIdentifierPart (htail d hd)⟩

theorem MethodForm.of_wordRun {type : Option Text} {name words u : Text} (hwords : words.IsWordRun methodWords)
    (h : MethodForm type name u) : MethodForm type name (words ++ u) := by
  induction hwords with
  | nil => exact h
  | cons hword hs _ ih =>
    rw [List.append_assoc, List.append_assoc]
    exact .modifier hword hs ih

/-- Such a header is the header of a method. -/
theorem HeadsMethod.exists_methodForm {name u : Text} (h : HeadsMethod name u) (hname : name.IsIdentifier) :
    ∃ type, MethodForm type name u := by
  have hbare : NameForm name name :=
    ⟨hname, [], (List.append_nil name).symm, [], [], [], rfl, by simp [Text.IsPadding], .inl rfl,
      by simp [Text.IsPadding]⟩
  cases h with
  | keyword hwords hkeyword hs htail =>
    exact ⟨_, .of_wordRun hwords
      (.typed (isTypeWord_of_isIdentifier (isIdentifier_typeWord hkeyword)) hs ⟨hname, _, rfl, htail⟩)⟩
  | scope _ he hd hone =>
    have hexport : Text.IsIdentifier "export".toList := isIdentifier_leadWord (by decide)
    rcases he with rfl | ⟨s, hs, rfl⟩
    · rcases hd with rfl | ⟨s', hs', rfl⟩
      · exact ⟨none, .plain hbare⟩
      · rw [List.nil_append, List.append_assoc]
        exact ⟨none, .modifier (by decide) hs' (.plain hbare)⟩
    · rcases hone with hnil | rfl
      · exact absurd hnil (by simp)
      · rw [List.nil_append, List.append_assoc]
        exact ⟨_, .typed (isTypeWord_of_isIdentifier hexport) hs hbare⟩

end Braces

end CodeAtlas
