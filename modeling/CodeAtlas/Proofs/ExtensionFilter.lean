import CodeAtlas.Config
import CodeAtlas.Proofs.Sequences
import CodeAtlas.Proofs.SmallForms
import CodeAtlas.Proofs.TextPieces

/-!
# The filter of extensions

The extensions that a scan takes are read from a variable, cut at commas and brought into a normal form: the blanks
around a part go first, then the dots in front of it, then capitals become small. Each step is made once. This file
says what a second round would change, and so when the filter is of use.

* `normalizeExtension_normal_iff`: an extension in normal form has another one just if a blank stood behind its dots;
* `Config.Usable`: the filter has extensions, which are distinct, in normal form, and accepted;
* `Config.extensions_usable_iff`: when the filter that the variables ask for is such a filter.
-/

namespace CodeAtlas

namespace Text

/-! ### Dots in front of a text -/

/-- All characters of a text are dots. -/
def OnlyDots (text : Text) : Prop :=
  ∀ c ∈ text, c = '.'

/-- The first character behind the dots in front of a text is a blank. -/
def BlankBehindDots (text : Text) : Prop :=
  ∃ dots c rest, text = dots ++ c :: rest ∧ OnlyDots dots ∧ isBlank c = true

/-- A text without the dots in front of it. -/
def withoutDots (text : Text) : Text :=
  text.dropWhile (· == '.')

theorem withoutDots_eq_nil_iff {text : Text} : withoutDots text = [] ↔ OnlyDots text := by
  rw [withoutDots, List.dropWhile_eq_nil_iff]
  simp only [beq_iff_eq]
  exact Iff.rfl

theorem head?_withoutDots (text : Text) : ∀ c ∈ (withoutDots text).head?, c ≠ '.' := by
  intro c hc
  have hnot := List.head?_dropWhile_not (· == '.') text
  rw [show (text.dropWhile (· == '.')).head? = some c from hc] at hnot
  simpa using hnot

theorem blankBehindDots_iff {text : Text} :
    BlankBehindDots text ↔ ∃ c rest, withoutDots text = c :: rest ∧ isBlank c = true := by
  constructor
  · intro h
    obtain ⟨dots, c, rest, rfl, hdots, hc⟩ := h
    refine ⟨c, rest, ?_, hc⟩
    have hdot : ¬(c == '.') = true := by
      intro hdot
      rw [beq_iff_eq.mp hdot] at hc
      exact absurd hc (by decide)
    rw [withoutDots, List.dropWhile_append_of_pos fun d hd => by rw [hdots d hd]; rfl]
    exact List.dropWhile_cons_of_neg hdot
  · intro h
    obtain ⟨c, rest, hrest, hc⟩ := h
    refine ⟨text.takeWhile (· == '.'), c, rest, ?_, ?_, hc⟩
    · rw [← hrest]
      exact List.takeWhile_append_dropWhile.symm
    · intro d hd
      exact beq_iff_eq.mp (List.all_eq_true.mp List.all_takeWhile d hd)

instance (text : Text) : Decidable (OnlyDots text) :=
  decidable_of_iff (withoutDots text = []) withoutDots_eq_nil_iff

instance (text : Text) : Decidable (BlankBehindDots text) :=
  decidable_of_iff ((withoutDots text).head?.any isBlank = true) <| by
    rw [blankBehindDots_iff]
    cases withoutDots text with
    | nil => simp
    | cons c rest => simp

theorem getLast?_withoutDots {text : Text} (h : ∀ c ∈ text.getLast?, isBlank c = false) :
    ∀ c ∈ (withoutDots text).getLast?, isBlank c = false := by
  intro c hc
  obtain ⟨dots, hdots⟩ := List.dropWhile_suffix (l := text) (· == '.')
  refine h c ?_
  have hne : text.dropWhile (· == '.') ≠ [] := by
    intro hnil
    rw [withoutDots, hnil] at hc
    cases hc
  rw [← hdots, List.getLast?_append_of_ne_nil _ hne]
  exact hc

/-- **A second round.** Trimmed, without dots in front and in small letters, a text stays as it is in a second round
unless a blank stood behind its dots. -/
theorem second_round_iff (text : Text) :
    lowercase (withoutDots (trim (lowercase (withoutDots (trim text))))) = lowercase (withoutDots (trim text)) ↔
      ¬BlankBehindDots (trim text) := by
  have hhead := head?_withoutDots (trim text)
  have hlast := getLast?_withoutDots (isBlank_getLast?_trim text)
  rw [blankBehindDots_iff]
  generalize withoutDots (trim text) = solid at hhead hlast
  constructor
  · intro hsame h
    obtain ⟨c, rest, rfl, hc⟩ := h
    have hsigma : ¬(c == 'Σ') = true := by
      intro hsigma
      rw [beq_iff_eq.mp hsigma] at hc
      exact absurd hc (by decide)
    have hcons : lowercase (c :: rest) = c :: lowercaseAfter [c] rest := by
      rw [lowercase, lowercaseAfter_cons, lowered, if_neg hsigma, lowerChar_of_isBlank hc]
      rfl
    -- the blank in front is lost for good, since what is left is in small letters
    have hsub : (withoutDots (trim (lowercase (c :: rest)))).Sublist (lowercaseAfter [c] rest) := by
      have hdrop : (lowercase (c :: rest)).dropWhile isBlank = (lowercaseAfter [c] rest).dropWhile isBlank := by
        rw [hcons, List.dropWhile_cons_of_pos hc]
      have htrim := (List.rdropWhile_prefix isBlank ((lowercase (c :: rest)).dropWhile isBlank)).sublist
      rw [hdrop] at htrim
      rw [trim, hdrop]
      exact (List.dropWhile_sublist _).trans (htrim.trans (List.dropWhile_sublist _))
    rw [lowercase_eq_self fun d hd => lowerChar_of_mem_lowercase rest [c] (hsub.subset hd)] at hsame
    have hlength := hsub.length_le
    rw [hsame, hcons, List.length_cons] at hlength
    omega
  · intro h
    have hsolid : ∀ c ∈ solid.head?, isBlank c = false := by
      intro c hc
      by_contra hblank
      obtain ⟨rest, hrest⟩ := List.head?_eq_some_iff.mp hc
      exact h ⟨c, rest, hrest, by simpa using hblank⟩
    have hblank : ∀ before c rest, isBlank c = false → ∀ d ∈ lowered before c rest, isBlank d = false :=
      fun _ _ _ hc _ hd => (lowered_spec hd).2.1 hc
    have hdot : ∀ before c rest, c ≠ '.' → ∀ d ∈ lowered before c rest, d ≠ '.' :=
      fun _ _ _ hc _ hd => (lowered_spec hd).2.2 hc
    have htrim : trim (lowercase solid) = lowercase solid :=
      trim_eq_self (head?_lowercaseAfter hblank [] hsolid) (getLast?_lowercaseAfter hblank solid [] hlast)
    have hdots : withoutDots (lowercase solid) = lowercase solid := by
      have hfirst := head?_lowercaseAfter hdot [] hhead
      rw [withoutDots]
      cases hsmall : lowercase solid with
      | nil => rfl
      | cons d rest =>
        have hd := hfirst d (by rw [show lowercaseAfter [] solid = d :: rest from hsmall]; rfl)
        rw [List.dropWhile_cons_of_neg (by simpa using hd)]
    rw [htrim, hdots, lowercase_lowercase]

end Text

/-! ### Extensions in normal form -/

theorem toList_normalizeExtension (extension : String) :
    (normalizeExtension extension).toList =
      Text.lowercase (Text.withoutDots (Text.trim extension.toList)) := by
  rw [normalizeExtension, String.toList_ofList]
  rfl

/-- **Normal forms.** The normal form of an extension has another one just if a blank stood behind its dots. -/
theorem normalizeExtension_normal_iff (extension : String) :
    normalizeExtension (normalizeExtension extension) = normalizeExtension extension ↔
      ¬Text.BlankBehindDots (Text.trim extension.toList) := by
  rw [← Text.second_round_iff, ← String.toList_inj, toList_normalizeExtension, toList_normalizeExtension]

/-- Nothing is left of an extension just if it is made of dots. -/
theorem normalizeExtension_eq_empty_iff (extension : String) :
    normalizeExtension extension = "" ↔ Text.OnlyDots (Text.trim extension.toList) := by
  rw [← Text.withoutDots_eq_nil_iff, ← String.toList_inj, toList_normalizeExtension, String.toList_empty]
  constructor
  · intro h
    by_contra hne
    exact Text.lowercase_ne_nil hne h
  · intro h
    rw [h]
    rfl

theorem trim_of_mem_splitList {value part : String} (h : part ∈ splitList value) :
    Text.trim part.toList = part.toList := by
  rw [splitList] at h
  obtain ⟨text, htext, rfl⟩ := List.mem_map.mp h
  obtain ⟨segment, -, rfl⟩ := List.mem_map.mp (List.mem_of_mem_filter htext)
  rw [String.toList_ofList, Text.trim_trim]

namespace Config

/-- A filter of use: it has extensions, and they are distinct, not empty, in normal form, and accepted. -/
structure Usable (config : Config) : Prop where
  ne_nil : config.extensions ≠ []
  nodup : config.extensions.Nodup
  ne_empty : ∀ e ∈ config.extensions, e ≠ ""
  normal : ∀ e ∈ config.extensions, normalizeExtension e = e
  accepted : ∀ e ∈ config.extensions, config.accepts e = true

theorem accepts_of_normal {config : Config} {e : String} (hmem : e ∈ config.extensions)
    (hnormal : normalizeExtension e = e) : config.accepts e = true := by
  rw [accepts, hnormal, List.contains_iff_mem]
  exact hmem

theorem mem_withExtensions {config : Config} {parts : List String} {e : String} :
    e ∈ (config.withExtensions parts).extensions ↔ e ≠ "" ∧ ∃ part ∈ parts, normalizeExtension part = e := by
  rw [withExtensions, List.mem_eraseDups, List.mem_filter, List.mem_map, and_comm, Bool.not_eq_true',
    String.isEmpty_eq_false_iff]

/-- Extensions are kept once and are not empty, whether or not the rest of the filter is of use. -/
theorem withExtensions_distinct (config : Config) (parts : List String) :
    (config.withExtensions parts).extensions.Nodup ∧ ∀ e ∈ (config.withExtensions parts).extensions, e ≠ "" :=
  ⟨nodup_eraseDups _, fun _ he => (mem_withExtensions.mp he).1⟩

/-- The filter of trimmed parts is of use just if a part is left and no part has a blank behind its dots. -/
theorem usable_withExtensions_iff (config : Config) {parts : List String}
    (htrim : ∀ part ∈ parts, Text.trim part.toList = part.toList) :
    (config.withExtensions parts).Usable ↔
      (∃ part ∈ parts, ¬Text.OnlyDots part.toList) ∧ ∀ part ∈ parts, ¬Text.BlankBehindDots part.toList := by
  obtain ⟨hnodup, hempty⟩ := config.withExtensions_distinct parts
  constructor
  · intro h
    refine ⟨?_, ?_⟩
    · obtain ⟨e, he⟩ := List.exists_mem_of_ne_nil _ h.ne_nil
      obtain ⟨hne, part, hpart, rfl⟩ := mem_withExtensions.mp he
      refine ⟨part, hpart, fun hdots => hne ?_⟩
      rw [normalizeExtension_eq_empty_iff, htrim part hpart]
      exact hdots
    · intro part hpart
      rw [← htrim part hpart, ← normalizeExtension_normal_iff]
      by_cases hne : normalizeExtension part = ""
      · -- nothing is left of the part, and nothing stays nothing
        rw [hne]
        rfl
      · exact h.normal _ (mem_withExtensions.mpr ⟨hne, part, hpart, rfl⟩)
  · intro h
    obtain ⟨⟨part, hpart, hdots⟩, hblank⟩ := h
    have hnormal : ∀ e ∈ (config.withExtensions parts).extensions, normalizeExtension e = e := by
      intro e he
      obtain ⟨-, part, hpart, rfl⟩ := mem_withExtensions.mp he
      rw [normalizeExtension_normal_iff, htrim part hpart]
      exact hblank part hpart
    have hleft : normalizeExtension part ≠ "" := by
      rw [Ne, normalizeExtension_eq_empty_iff, htrim part hpart]
      exact hdots
    exact {
      ne_nil := List.ne_nil_of_mem (mem_withExtensions.mpr ⟨hleft, part, hpart, rfl⟩)
      nodup := hnodup
      ne_empty := hempty
      normal := hnormal
      accepted := fun e he => accepts_of_normal he (hnormal e he) }

/-- The filter without variables is of use. -/
theorem usable_default : ({} : Config).Usable := by
  have hnormal : (({} : Config).extensions.all fun e => normalizeExtension e == e) = true := by decide +kernel
  have hempty : (({} : Config).extensions.all fun e => e != "") = true := by decide +kernel
  have hnormal : ∀ e ∈ ({} : Config).extensions, normalizeExtension e = e :=
    fun e he => beq_iff_eq.mp (List.all_eq_true.mp hnormal e he)
  exact {
    ne_nil := List.cons_ne_nil _ _
    nodup := by decide
    ne_empty := fun e he => bne_iff_ne.mp (List.all_eq_true.mp hempty e he)
    normal := hnormal
    accepted := fun e he => accepts_of_normal he (hnormal e he) }

/-- More patterns to leave out change nothing about the extensions. -/
theorem usable_withIgnorePatterns_iff (config : Config) (patterns : List String) :
    (config.withIgnorePatterns patterns).Usable ↔ config.Usable :=
  ⟨fun h => ⟨h.ne_nil, h.nodup, h.ne_empty, h.normal, h.accepted⟩,
    fun h => ⟨h.ne_nil, h.nodup, h.ne_empty, h.normal, h.accepted⟩⟩

/-- The configuration before the variable of patterns is read. -/
def ofExtensions (value : Option String) : Config :=
  match value with
  | none => {}
  | some value => if (splitList value).isEmpty then {} else withExtensions {} (splitList value)

theorem ofVariables_eq (env : Variables) :
    ofVariables env =
      match env.ignorePatterns with
      | none => ofExtensions env.codeExtensions
      | some value => (ofExtensions env.codeExtensions).withIgnorePatterns (splitList value) := rfl

theorem extensions_ofVariables (env : Variables) :
    (ofVariables env).extensions = (ofExtensions env.codeExtensions).extensions := by
  rw [ofVariables_eq]
  cases env.ignorePatterns with
  | none => rfl
  | some value => rfl

theorem usable_ofVariables_iff (env : Variables) :
    (ofVariables env).Usable ↔ (ofExtensions env.codeExtensions).Usable := by
  rw [ofVariables_eq]
  cases env.ignorePatterns with
  | none => exact Iff.rfl
  | some value => exact usable_withIgnorePatterns_iff _ _

theorem ofExtensions_distinct (value : Option String) :
    (ofExtensions value).extensions.Nodup ∧ ∀ e ∈ (ofExtensions value).extensions, e ≠ "" := by
  cases value with
  | none => exact ⟨usable_default.nodup, usable_default.ne_empty⟩
  | some value =>
    rw [ofExtensions]
    split_ifs
    · exact ⟨usable_default.nodup, usable_default.ne_empty⟩
    · exact withExtensions_distinct _ _

/-- **The filter that the variables ask for.** Its extensions are distinct and not empty, whatever the variables hold.
It is of use just if the value for the extensions has no part, or has a part that is more than dots and no part with a
blank behind its dots. -/
theorem extensions_usable_iff (env : Variables) :
    (ofVariables env).extensions.Nodup ∧ (∀ e ∈ (ofVariables env).extensions, e ≠ "") ∧
      ((ofVariables env).Usable ↔
        ∀ value, env.codeExtensions = some value → splitList value ≠ [] →
          (∃ part ∈ splitList value, ¬Text.OnlyDots part.toList) ∧
            ∀ part ∈ splitList value, ¬Text.BlankBehindDots part.toList) := by
  obtain ⟨hnodup, hempty⟩ := ofExtensions_distinct env.codeExtensions
  rw [extensions_ofVariables, usable_ofVariables_iff]
  refine ⟨hnodup, hempty, ?_⟩
  cases hvalue : env.codeExtensions with
  | none =>
    constructor
    · intro _ _ hsome
      cases hsome
    · intro _
      exact usable_default
  | some value =>
    by_cases hparts : splitList value = []
    · have hdefault : ofExtensions (some value) = {} := by rw [ofExtensions, hparts]; rfl
      rw [hdefault]
      constructor
      · intro _ _ hsome hne
        cases hsome
        exact absurd hparts hne
      · intro _
        exact usable_default
    · have hread : ofExtensions (some value) = withExtensions {} (splitList value) := by
        rw [ofExtensions, if_neg (by rw [List.isEmpty_iff]; exact hparts)]
      rw [hread, usable_withExtensions_iff _ fun part hpart => trim_of_mem_splitList hpart]
      constructor
      · intro h _ hsome _
        cases hsome
        exact h
      · intro h
        exact h value rfl hparts

/-- A capital sigma at the end of a word becomes the final form. The tables are read as lists, which is what makes this
quick to compute. -/
theorem normalizeExtension_finalSigma : normalizeExtension "ΟΔΟΣ" = "οδος" := by
  have hignored : Text.isCaseIgnorable 'Ο' = false := by
    rw [Text.isCaseIgnorable, if_neg (by decide), Text.inRanges, ← Array.any_toList]
    decide +kernel
  have hcased : Text.isCased 'Ο' = true := by
    rw [Text.isCased, if_neg (by decide), Text.inRanges, ← Array.any_toList]
    decide +kernel
  have hmeets : Text.meetsCased ['Ο', 'Δ', 'Ο'] = true := by
    rw [Text.meetsCased, List.dropWhile_cons_of_neg (by rw [hignored]; decide)]
    exact hcased
  have hsigma : Text.lowered ['Ο', 'Δ', 'Ο'] 'Σ' [] = ['ς'] := by
    rw [Text.lowered, if_pos (by decide), Text.lowerSigma, hmeets]
    decide
  have homicron : ∀ before rest, Text.lowered before 'Ο' rest = ['ο'] := by
    intro before rest
    rw [Text.lowered, if_neg (by decide)]
    decide +kernel
  have hdelta : ∀ before rest, Text.lowered before 'Δ' rest = ['δ'] := by
    intro before rest
    rw [Text.lowered, if_neg (by decide)]
    decide +kernel
  have hsolid : Text.withoutDots (Text.trim "ΟΔΟΣ".toList) = ['Ο', 'Δ', 'Ο', 'Σ'] := by decide
  rw [← String.toList_inj, toList_normalizeExtension, hsolid, Text.lowercase, Text.lowercaseAfter_cons,
    Text.lowercaseAfter_cons, Text.lowercaseAfter_cons, Text.lowercaseAfter_cons, homicron, hdelta, homicron, hsigma]
  decide

/-- Dots and blanks around parts do no harm, nor do parts that are only dots next to another one. -/
theorem usable_of_dotted_parts :
    (ofVariables ⟨some " .C ,.., ΟΔΟΣ", some "*.log"⟩).Usable ∧
      (ofVariables ⟨some " .C ,.., ΟΔΟΣ", some "*.log"⟩).extensions = ["c", "οδος"] := by
  have hparts : splitList " .C ,.., ΟΔΟΣ" = [".C", "..", "ΟΔΟΣ"] := by decide +kernel
  have hnormal : [".C", "..", "ΟΔΟΣ"].map normalizeExtension = ["c", "", "οδος"] := by
    rw [List.map_cons, List.map_cons, List.map_singleton, normalizeExtension_finalSigma]
    decide +kernel
  refine ⟨(extensions_usable_iff ⟨some " .C ,.., ΟΔΟΣ", some "*.log"⟩).2.2.mpr ?_, ?_⟩
  · intro value hvalue _
    cases hvalue
    rw [hparts]
    exact ⟨by decide, by decide⟩
  · rw [extensions_ofVariables, ofExtensions, hparts, if_neg (by decide), withExtensions, hnormal]
    decide

/-- A value of dots leaves no extension, and a blank behind a dot stays in front of an extension, which is then not
accepted. -/
theorem unusable_extensions :
    (ofVariables ⟨some ".", none⟩).extensions = [] ∧ ¬(ofVariables ⟨some ".", none⟩).Usable ∧
      (ofVariables ⟨some ". py", none⟩).extensions = [" py"] ∧ normalizeExtension " py" = "py" ∧
      (ofVariables ⟨some ". py", none⟩).accepts " py" = false ∧ ¬(ofVariables ⟨some ". py", none⟩).Usable := by
  have hdots : (ofVariables ⟨some ".", none⟩).extensions = [] := by decide +kernel
  have hblank : (ofVariables ⟨some ". py", none⟩).extensions = [" py"] := by decide +kernel
  have hrejected : (ofVariables ⟨some ". py", none⟩).accepts " py" = false := by decide +kernel
  refine ⟨hdots, fun h => h.ne_nil hdots, hblank, by decide +kernel, hrejected, ?_⟩
  intro h
  have haccepted := h.accepted " py" (by rw [hblank]; exact List.mem_singleton_self _)
  rw [hrejected] at haccepted
  cases haccepted

end Config

end CodeAtlas
