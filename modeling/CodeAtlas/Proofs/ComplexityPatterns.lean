import CodeAtlas.Proofs.NestedComplexity
import CodeAtlas.Proofs.PatternForms
import CodeAtlas.Proofs.SmallForms

/-!
# Counting lexemes and counting matches

Branches and calls are counted on the lexemes of a code. Both can be described by a pattern as well: a branching word
with an edge on either side, or an operator; and a name behind an edge, with blanks and a parenthesis behind it. The
search for a pattern knows nothing of lexemes, and its matches may reach over several of them. This file shows that the
two ways of counting agree on every text.

* `Spells`: some lexemes and the text that they are read off; `spells_lexemes`: every text has them;
* `Text.isWordEdge_iff`: where an edge is, in terms of the words on its sides;
* `Pattern.findAllFrom_word`: the search passes over a word at which no match starts;
* `Spells.length_findAllFrom_branch`: the matches for branches from a lexeme on;
* `Spells.countP_findAllFrom_call`: those for calls, which are passed over with their gap and their parenthesis;
* `ComplexityReport.counts_matches`: the counts of a report are those of the matches in its code.
-/

namespace CodeAtlas

/-! ### Edges of words -/

namespace Text

/-- Whether the first character of a text is in a word. -/
def startsWord (text : Text) : Bool :=
  text.head?.any isWord

/-- Whether the last character of a text is in a word. -/
def endsWord (text : Text) : Bool :=
  text.getLast?.any isWord

theorem isWordEdge_iff {l r : Text} {m : Marks} :
    (Place.spot ⟨l, r, m⟩).isWordEdge = true ↔ l.endsWord ≠ r.startsWord := by
  rw [Spot.isWordEdge, bne_iff_ne]
  exact Iff.rfl

theorem startsWord_append {w : Text} (hne : w ≠ []) (hw : ∀ c ∈ w, isWord c = true) (r : Text) :
    startsWord (w ++ r) = true := by
  cases w with
  | nil => exact absurd rfl hne
  | cons c w => exact hw c List.mem_cons_self

theorem endsWord_append {w : Text} (hne : w ≠ []) (hw : ∀ c ∈ w, isWord c = true) (l : Text) :
    endsWord (l ++ w) = true := by
  rw [endsWord, List.getLast?_append_of_ne_nil l hne, List.getLast?_eq_some_getLast hne]
  exact hw _ (List.getLast_mem hne)

theorem endsWord_concat (l : Text) (c : Char) : endsWord (l ++ [c]) = isWord c := by
  rw [endsWord, List.getLast?_concat]
  rfl

/-- A word that ends where it can is cut off in one way only. -/
theorem eq_of_append_eq {w w' r r' : Text} (hw : ∀ c ∈ w, isWord c = true) (hw' : ∀ c ∈ w', isWord c = true)
    (hr : r.startsWord = false) (hr' : r'.startsWord = false) (h : w ++ r = w' ++ r') : w = w' ∧ r = r' :=
  append_inj_of_all hw hw' ((Option.any_eq_false _ _).mp hr) ((Option.any_eq_false _ _).mp hr') h

theorem wordRanges_avoid_blanks : (wordRanges.toList.all fun range => blankRanges.all fun blank =>
    Nat.blt range.2 blank.1 || Nat.blt blank.2 range.1) = true := by
  decide +kernel

/-- No blank is in a word. -/
theorem isWord_of_isBlank {c : Char} (h : isBlank c = true) : isWord c = false := by
  rw [isWord]
  split_ifs with hascii
  · simp only [isBlank, Bool.or_eq_true, Bool.and_eq_true, decide_eq_true_eq, beq_iff_eq] at h
    have hletter : ∀ low high : Char, 32 < low.toNat → (decide (low ≤ c) && decide (c ≤ high)) = false := by
      intro low high hlow
      have hlt : ¬low ≤ c := fun hle => by
        have hnat : low.toNat ≤ c.toNat := hle
        omega
      simp [hlt]
    have hunderscore : (c == '_') = false := beq_false_of_ne fun hc => by
      rw [hc] at h
      revert h
      decide
    rw [isAsciiStart, hletter 'a' 'z' (by decide), hletter 'A' 'Z' (by decide), hletter '0' '9' (by decide),
      hunderscore]
    rfl
  · obtain ⟨blank, hblank, hle, hge⟩ := exists_blankRange h hascii
    rw [inRanges, ← Array.any_toList, List.any_eq_false]
    intro range hrange
    have hapart := List.all_eq_true.mp (List.all_eq_true.mp wordRanges_avoid_blanks range hrange) blank hblank
    simp only [Bool.or_eq_true, Nat.blt_eq] at hapart
    simp only [Bool.and_eq_true, decide_eq_true_eq]
    omega

end Text

/-! ### Lexemes and their text -/

/-- The lexemes read off a text: words that are not empty and end where they can, and the characters between them. -/
inductive Spells : List Lexeme → Text → Prop
  | nil : Spells [] []
  | word {w text : Text} {rest : List Lexeme} (hne : w ≠ []) (hw : ∀ c ∈ w, Text.isWord c = true)
      (hapart : text.startsWord = false) (h : Spells rest text) : Spells (.word w :: rest) (w ++ text)
  | other {c : Char} {text : Text} {rest : List Lexeme} (hc : Text.isWord c = false) (h : Spells rest text) :
      Spells (.other c :: rest) (c :: text)

theorem spells_lexemesFrom (text : Text) :
    ∀ begun : Text, (∀ c ∈ begun, Text.isWord c = true) → Spells (lexemesFrom begun text) (begun ++ text) := by
  induction text with
  | nil =>
    intro begun hbegun
    cases begun with
    | nil => exact .nil
    | cons c begun => exact .word (List.cons_ne_nil c begun) hbegun rfl .nil
  | cons c text ih =>
    intro begun hbegun
    rw [lexemesFrom]
    cases hc : Text.isWord c with
    | true =>
      have hmore := ih (begun ++ [c]) (by simpa [or_imp, forall_and, hc] using hbegun)
      rw [List.append_assoc] at hmore
      exact hmore
    | false =>
      have hother : Spells (.other c :: lexemesFrom [] text) (c :: text) := .other hc (ih [] (by simp))
      cases begun with
      | nil => exact hother
      | cons d begun => exact .word (List.cons_ne_nil d begun) hbegun hc hother

/-- The lexemes of a text spell it. -/
theorem spells_lexemes (text : Text) : Spells (lexemes text) text :=
  spells_lexemesFrom text [] (by simp)

/-- A character that is in no word is a lexeme. -/
theorem Spells.exists_other {lexemes : List Lexeme} {c : Char} {text : Text} (h : Spells lexemes (c :: text))
    (hc : Text.isWord c = false) : ∃ rest, lexemes = .other c :: rest := by
  generalize htext : c :: text = whole at h
  cases h with
  | nil => cases htext
  | @word w text' rest hne hw _ _ =>
    have hstart := Text.startsWord_append hne hw text'
    rw [← htext] at hstart
    exact absurd (hc.symm.trans hstart) Bool.false_ne_true
  | other _ _ =>
    cases htext
    exact ⟨_, rfl⟩

/-- If matches start at edges only, a word at which none starts is passed over as a whole. -/
theorem Pattern.findAllFrom_word {p : Pattern} {left w rest : Text} {Q : Text → Prop} (skip : Nat)
    (hw : ∀ c ∈ w, Text.isWord c = true)
    (hmatch : ∀ l v w' r', v ≠ [] → (∀ c ∈ v, Text.isWord c = true) → v ++ rest = w' ++ r' → p.Spans l w' r' →
      Q v ∧ l.endsWord = false) (hnot : ¬Q w) :
    p.findAllFrom skip left.getLast? left.size (w ++ rest)
      = p.findAllFrom skip (left ++ w).getLast? (Text.size (left ++ w)) rest := by
  refine findAllFrom_pass p skip w rest left fun u v huv hv => matchAt?_eq_none fun w' r' heq h => ?_
  have hv' : ∀ c ∈ v, Text.isWord c = true := fun c hc => hw c (by rw [huv]; exact List.mem_append_right u hc)
  obtain ⟨hQ, hleft⟩ := hmatch _ v w' r' hv hv' heq h
  by_cases hu : u = []
  · rw [huv, hu] at hnot
    exact hnot hQ
  · -- within the word there is no edge
    rw [Text.endsWord_append hu fun c hc => hw c (by rw [huv]; exact List.mem_append_left v hc)] at hleft
    cases hleft

/-! ### Branches -/

/-- A branching word between two edges, or a doubled ampersand or bar. -/
def branchPattern : Pattern :=
  (.wordEdge ++ Pattern.anyOf branchWords ++ .wordEdge ||| Pattern.lit "&&" ||| Pattern.lit "||").numbered

theorem branchWords_are_words :
    (branchWords.all fun s => !s.toList.isEmpty && s.toList.all Text.isWord) = true := by
  decide

namespace Pattern

theorem spans_branch {l w r : Text} :
    branchPattern.Spans l w r ↔
      (w ≠ [] ∧ (∀ c ∈ w, Text.isWord c = true) ∧ String.ofList w ∈ branchWords ∧ l.endsWord = false ∧
        r.startsWord = false) ∨ w = ['&', '&'] ∨ w = ['|', '|'] := by
  have hword : (wordEdge ++ anyOf branchWords ++ wordEdge).Spans l w r ↔
      w ≠ [] ∧ (∀ c ∈ w, Text.isWord c = true) ∧ String.ofList w ∈ branchWords ∧ l.endsWord = false ∧
        r.startsWord = false := by
    simp only [append_eq_seq, spans_seq, spans_wordEdge, spans_anyOf branchWords (by decide), Text.isWordEdge_iff]
    constructor
    · intro h
      obtain ⟨_, _, rfl, ⟨_, _, rfl, ⟨rfl, hopen⟩, word, hmem, rfl⟩, rfl, hclose⟩ := h
      have hspec := List.all_eq_true.mp branchWords_are_words word hmem
      rw [Bool.and_eq_true, List.all_eq_true] at hspec
      have hne : word.toList ≠ [] := by simpa using hspec.1
      simp only [List.nil_append, List.append_nil] at hopen hclose ⊢
      rw [Text.startsWord_append hne hspec.2, ne_eq, Bool.not_eq_true] at hopen
      rw [Text.endsWord_append hne hspec.2, ne_comm, ne_eq, Bool.not_eq_true] at hclose
      exact ⟨hne, hspec.2, by rwa [String.ofList_toList], hopen, hclose⟩
    · intro h
      obtain ⟨hne, hw, hmem, hleft, hright⟩ := h
      refine ⟨w, [], by simp, ⟨[], w, by simp, ⟨rfl, ?_⟩, String.ofList w, hmem, by simp⟩, rfl, ?_⟩
      · simp [hleft, Text.startsWord_append hne hw]
      · simp [hright, Text.endsWord_append hne hw]
  rw [branchPattern, spans_numbered, or_eq_choice, spans_choice, or_eq_choice, spans_choice, hword, spans_lit,
    spans_lit, or_assoc]
  exact Iff.rfl

/-- Where a word stands, only a branching word is a match, and only as a whole. -/
theorem spans_branch_of_word {l w w' r r' : Text} (hne : w ≠ []) (hw : ∀ c ∈ w, Text.isWord c = true)
    (hapart : r.startsWord = false) (heq : w ++ r = w' ++ r') (h : branchPattern.Spans l w' r') :
    w' = w ∧ String.ofList w ∈ branchWords ∧ l.endsWord = false := by
  have hstart := Text.startsWord_append hne hw r
  rcases spans_branch.mp h with ⟨-, hw', hmem, hleft, hright⟩ | rfl | rfl
  · obtain ⟨rfl, -⟩ := Text.eq_of_append_eq hw hw' hapart hright heq
    exact ⟨rfl, hmem, hleft⟩
  · rw [heq] at hstart
    exact absurd (show Text.isWord '&' = true from hstart) (by decide)
  · rw [heq] at hstart
    exact absurd (show Text.isWord '|' = true from hstart) (by decide)

theorem matchAt?_branch_nil (l : Text) : branchPattern.matchAt? l.getLast? l.size [] = none := by
  refine matchAt?_eq_none fun w r heq h => ?_
  obtain ⟨rfl, rfl⟩ := List.nil_eq_append_iff.mp heq
  rcases spans_branch.mp h with ⟨hne, -⟩ | h | h
  · exact hne rfl
  · cases h
  · cases h

/-- A word that is no branching word is passed over as a whole. -/
theorem findAllFrom_branch_word {left w rest : Text} (skip : Nat) (hw : ∀ c ∈ w, Text.isWord c = true)
    (hapart : rest.startsWord = false) (hmem : String.ofList w ∉ branchWords) :
    branchPattern.findAllFrom skip left.getLast? left.size (w ++ rest)
      = branchPattern.findAllFrom skip (left ++ w).getLast? (Text.size (left ++ w)) rest := by
  refine findAllFrom_word skip hw (Q := fun v => String.ofList v ∈ branchWords) ?_ hmem
  intro l v w' r' hne hv heq h
  exact (spans_branch_of_word hne hv hapart heq h).2

/-- Behind a match for a branch, if nothing else can be read in its place, the search goes on. -/
theorem exists_findAllFrom_branch {left w rest : Text} {skip : Nat} (hskip : skip ≤ left.size) (hne : w ≠ [])
    (hspans : branchPattern.Spans left w rest)
    (hunique : ∀ w' r', w ++ rest = w' ++ r' → branchPattern.Spans left w' r' → w' = w) :
    ∃ m, branchPattern.findAllFrom skip left.getLast? left.size (w ++ rest)
      = m :: branchPattern.findAllFrom (Text.size (left ++ w)) (left ++ w).getLast? (Text.size (left ++ w)) rest := by
  obtain ⟨m, hm, hspan, -⟩ := exists_matchAt?_of_spans hspans hunique
  exact ⟨m, findAllFrom_match hskip hne hm (by rw [hspan])⟩

/-- Where a character stands that is in no word, only an operator is read. -/
theorem spans_branch_of_other {l text w r : Text} {c : Char} (hc : Text.isWord c = false) (heq : c :: text = w ++ r)
    (h : branchPattern.Spans l w r) : w = [c, c] ∧ text = c :: r ∧ (c = '&' ∨ c = '|') := by
  rcases spans_branch.mp h with ⟨hne, hw, -⟩ | rfl | rfl
  · have hstart := Text.startsWord_append hne hw r
    rw [← heq] at hstart
    exact absurd (hc.symm.trans hstart) Bool.false_ne_true
  · obtain ⟨rfl, rfl⟩ := List.cons.inj heq
    exact ⟨rfl, rfl, .inl rfl⟩
  · obtain ⟨rfl, rfl⟩ := List.cons.inj heq
    exact ⟨rfl, rfl, .inr rfl⟩

end Pattern

/-- The two signs of an operator are one match. -/
theorem Spells.exists_findAllFrom_operator {c : Char} {rest : List Lexeme} {text left : Text} {skip : Nat}
    (h : Spells (.other c :: .other c :: rest) text) (hsign : c = '&' ∨ c = '|') (hskip : skip ≤ left.size) :
    ∃ m text', Spells rest text' ∧ Text.endsWord (left ++ [c, c]) = false ∧
      branchPattern.findAllFrom skip left.getLast? left.size text
        = m :: branchPattern.findAllFrom (Text.size (left ++ [c, c])) (left ++ [c, c]).getLast?
            (Text.size (left ++ [c, c])) text' := by
  cases h with
  | other hc h =>
    cases h with
    | @other _ text' _ _ h =>
      have hspans : branchPattern.Spans left [c, c] text' := by
        rw [Pattern.spans_branch]
        rcases hsign with rfl | rfl
        · exact .inr (.inl rfl)
        · exact .inr (.inr rfl)
      obtain ⟨m, hm⟩ := Pattern.exists_findAllFrom_branch hskip (List.cons_ne_nil c [c]) hspans
        fun w' r' heq hspans' => (Pattern.spans_branch_of_other hc heq hspans').1
      refine ⟨m, text', h, ?_, hm⟩
      rw [show left ++ [c, c] = left ++ [c] ++ [c] by simp, Text.endsWord_concat, hc]

/-- **The matches for branches** in the text of some lexemes are as many as these have branch points. -/
theorem Spells.length_findAllFrom_branch {lexemes : List Lexeme} {text : Text} (h : Spells lexemes text) :
    ∀ {left : Text} {skip : Nat}, skip ≤ left.size → (left.endsWord = true → text.startsWord = false) →
      (branchPattern.findAllFrom skip left.getLast? left.size text).length = branchPoints lexemes := by
  fun_induction branchPoints lexemes generalizing text with
  | case1 =>
    intro left skip hskip hapart
    cases h
    rw [Pattern.findAllFrom, if_neg (by omega), Pattern.matchAt?_branch_nil]
    rfl
  | case2 w rest ih =>
    intro left skip hskip hbefore
    cases h with
    | @word _ text _ hne hw hapart h =>
      have hleft : left.endsWord = false := by
        rw [Text.startsWord_append hne hw] at hbefore
        simpa using hbefore
      by_cases hmem : String.ofList w ∈ branchWords
      · obtain ⟨m, hm⟩ := Pattern.exists_findAllFrom_branch hskip hne
          (Pattern.spans_branch.mpr (.inl ⟨hne, hw, hmem, hleft, hapart⟩))
          fun w' r' heq hspans => (Pattern.spans_branch_of_word hne hw hapart heq hspans).1
        rw [hm, List.length_cons, ih h (Nat.le_refl _) fun _ => hapart, if_pos (List.contains_iff_mem.mpr hmem),
          Nat.add_comm]
      · rw [Pattern.findAllFrom_branch_word skip hw hapart hmem,
          ih h (by rw [Text.size_append]; omega) fun _ => hapart,
          if_neg fun hcontains => hmem (List.contains_iff_mem.mp hcontains), Nat.zero_add]
  | case3 rest ih =>
    intro left skip hskip _
    obtain ⟨m, text', h', hends, hfind⟩ := h.exists_findAllFrom_operator (.inl rfl) hskip
    rw [hfind, List.length_cons, ih h' (Nat.le_refl _) (by rw [hends]; simp), Nat.add_comm]
  | case4 rest ih =>
    intro left skip hskip _
    obtain ⟨m, text', h', hends, hfind⟩ := h.exists_findAllFrom_operator (.inr rfl) hskip
    rw [hfind, List.length_cons, ih h' (Nat.le_refl _) (by rw [hends]; simp), Nat.add_comm]
  | case5 c rest hand hor ih =>
    intro left skip hskip _
    cases h with
    | @other _ text _ hc h =>
      have hnone : branchPattern.matchAt? left.getLast? left.size (c :: text) = none := by
        refine Pattern.matchAt?_eq_none fun w' r' heq hspans => ?_
        -- the second sign of an operator would be the next lexeme
        obtain ⟨-, rfl, hsign⟩ := Pattern.spans_branch_of_other hc heq hspans
        obtain ⟨rest', hrest⟩ := h.exists_other hc
        rcases hsign with rfl | rfl
        · exact hand rest' hrest rfl
        · exact hor rest' hrest rfl
      rw [Pattern.findAllFrom_step skip hnone, ih h (by rw [Text.size_append]; omega)]
      rw [Text.endsWord_concat, hc]
      simp

theorem branchPoints_eq_length (text : Text) : branchPoints (lexemes text) = (branchPattern.findAll text).length := by
  have hcount : (branchPattern.findAllFrom 0 (List.getLast? []) (Text.size []) text).length
      = branchPoints (lexemes text) :=
    (spells_lexemes text).length_findAllFrom_branch (Nat.le_refl 0) fun h => absurd h (by decide)
  exact hcount.symm

/-! ### Calls -/

/-- A name behind an edge, as its first group, with blanks and an opening parenthesis behind it. -/
def callPattern : Pattern :=
  (.wordEdge ++ Pattern.group 1 (Pattern.one .asciiStart ++ Pattern.star (Pattern.one .word)) ++
    Pattern.star (Pattern.one .blank) ++ Pattern.lit "(").numbered

/-- The name of what a match calls. -/
def calledName (text : Text) (m : Match) : Text :=
  ((m.group? 1).bind fun span => text.slice? span.start span.stop).getD []

namespace Text

/-- The text is a word that starts with an ASCII letter or an underscore. -/
structure IsCallName (name : Text) : Prop where
  start : name.head?.any isAsciiStart = true
  word : ∀ c ∈ name, isWord c = true

/-- The text is a gap and a parenthesis behind a name, up to `rest`. -/
def OpensCall (text gap rest : Text) : Prop :=
  text = gap ++ '(' :: rest ∧ ∀ c ∈ gap, isBlank c = true

theorem IsCallName.ne_nil {name : Text} (h : name.IsCallName) : name ≠ [] := by
  intro hnil
  have hstart := h.start
  rw [hnil] at hstart
  cases hstart

theorem OpensCall.startsWord {text gap rest : Text} (h : text.OpensCall gap rest) : text.startsWord = false := by
  obtain ⟨rfl, hgap⟩ := h
  cases gap with
  | nil => exact show isWord '(' = false by decide
  | cons c gap => exact isWord_of_isBlank (hgap c List.mem_cons_self)

/-- The gap behind a name ends at the parenthesis. -/
theorem OpensCall.unique {text gap gap' rest rest' : Text} (h : text.OpensCall gap rest)
    (h' : text.OpensCall gap' rest') : gap = gap' ∧ rest = rest' := by
  have hparen : ∀ {gap : Text}, (∀ c ∈ gap, isBlank c = true) → '(' ∉ gap := fun hgap hmem =>
    absurd (hgap '(' hmem) (by decide)
  exact append_cons_inj_of_not_mem (hparen h.2) (hparen h'.2) (h.1.symm.trans h'.1)

end Text

namespace Pattern

theorem spans_callName {l w r : Text} : (one .asciiStart ++ star (one .word)).Spans l w r ↔ w.IsCallName := by
  simp only [append_eq_seq, spans_seq, spans_one, spans_star_one, contains_asciiStart, contains_word]
  constructor
  · intro h
    obtain ⟨_, v, rfl, ⟨c, rfl, hc⟩, hv⟩ := h
    refine ⟨hc, fun d hd => ?_⟩
    rcases List.mem_cons.mp hd with rfl | hd
    · exact Text.isWord_of_isAsciiStart hc
    · exact hv d hd
  · intro h
    cases w with
    | nil => exact absurd rfl h.ne_nil
    | cons c v => exact ⟨[c], v, rfl, ⟨c, rfl, h.start⟩, fun d hd => h.word d (List.mem_cons_of_mem c hd)⟩

theorem contains_blank (c : Char) : CharClass.blank.contains c = Text.isBlank c := by
  show ((Text.isBlank c || false) != false) = Text.isBlank c
  rw [Bool.or_false, Bool.bne_false]

/-- What a way through the pattern of calls reads and records. -/
theorem exists_call_of_reads {k k' : Place} (h : Reads callPattern k k') :
    ∃ name gap, k.after = name ++ (gap ++ '(' :: k'.after) ∧ k'.before = k.before ++ (name ++ (gap ++ ['('])) ∧
      name.IsCallName ∧ (∀ c ∈ gap, Text.isBlank c = true) ∧ k.before.endsWord = false ∧
      k'.marks = (3, Text.size (k.before ++ name)) :: (2, k.before.size) :: k.marks := by
  obtain ⟨k₃, h, hparen⟩ := (reads_numbered_iff.mp h).exists_between
  obtain ⟨k₂, h, hgap⟩ := h.exists_between
  obtain ⟨k₁, hedge, hname⟩ := h.exists_between
  have hmarks₁ := hedge.marks_eq (by decide)
  have hmarks := hname.group_marks (by decide)
  have hmarks' := hgap.marks_eq (by decide)
  have hmarks'' := hparen.marks_eq (by decide)
  obtain ⟨_, hbefore₁, hafter₁, hedge⟩ := hedge.exists_spans
  obtain ⟨name, hbefore₂, hafter₂, hname⟩ := hname.exists_spans
  obtain ⟨gap, hbefore₃, hafter₃, hgap⟩ := hgap.exists_spans
  obtain ⟨_, hbefore₄, hafter₄, hparen⟩ := hparen.exists_spans
  obtain ⟨rfl, hplace⟩ := spans_wordEdge.mp hedge
  rw [spans_group, spans_callName] at hname
  obtain rfl := spans_lit.mp hparen
  rw [List.append_nil] at hbefore₁
  rw [List.nil_append] at hafter₁
  rw [Text.isWordEdge_iff, hafter₂, Text.startsWord_append hname.ne_nil hname.word, ne_eq, Bool.not_eq_true] at hplace
  refine ⟨name, gap, ?_, ?_, hname, ?_, hplace, ?_⟩
  · rw [hafter₁, hafter₂, hafter₃, hafter₄]
    rfl
  · rw [hbefore₄, hbefore₃, hbefore₂, hbefore₁, List.append_assoc, List.append_assoc]
    rfl
  · simpa only [spans_star_one, contains_blank] using hgap
  · rw [hmarks'', hmarks', hmarks, hmarks₁, hbefore₂, hbefore₁]

theorem spans_call {l name gap r : Text} (hname : name.IsCallName) (hgap : ∀ c ∈ gap, Text.isBlank c = true)
    (hleft : l.endsWord = false) : callPattern.Spans l (name ++ (gap ++ ['('])) r := by
  rw [callPattern, spans_numbered]
  simp only [append_eq_seq, spans_seq]
  refine ⟨name ++ gap, ['('], by simp, ⟨name, gap, rfl, ⟨[], name, rfl, ?_, ?_⟩, ?_⟩, spans_lit.mpr rfl⟩
  · rw [spans_wordEdge, Text.isWordEdge_iff, Text.startsWord_append hname.ne_nil hname.word, hleft]
    exact ⟨rfl, Bool.false_ne_true⟩
  · rw [spans_group]
    exact spans_callName.mpr hname
  · simpa only [spans_star_one, contains_blank] using hgap

/-- Where a word stands, a match reads the whole word, the gap behind it and a parenthesis. -/
theorem call_of_spans {l w w' text r : Text} (hw : ∀ c ∈ w, Text.isWord c = true) (hapart : text.startsWord = false)
    (heq : w ++ text = w' ++ r) (h : callPattern.Spans l w' r) :
    ∃ gap, w' = w ++ (gap ++ ['(']) ∧ text.OpensCall gap r ∧ w.IsCallName ∧ l.endsWord = false := by
  obtain ⟨m, m', hreads⟩ := h
  obtain ⟨name, gap, hafter, hbefore, hname, hgap, hleft, -⟩ := exists_call_of_reads hreads
  dsimp only at hafter hbefore hleft
  have hbehind : Text.OpensCall (gap ++ '(' :: r) gap r := ⟨rfl, hgap⟩
  obtain ⟨rfl, rfl⟩ := Text.eq_of_append_eq hw hname.word hapart hbehind.startsWord (heq.trans hafter)
  exact ⟨gap, List.append_cancel_left hbefore, hbehind, hname, hleft⟩

/-- A name with a parenthesis behind it is a match, whose first group is the name. -/
theorem exists_matchAt?_call {left name gap text rest : Text} (hname : name.IsCallName)
    (hopens : text.OpensCall gap rest) (hleft : left.endsWord = false) :
    ∃ m, callPattern.matchAt? left.getLast? left.size (name ++ text) = some m ∧
      m.span.stop = Text.size (left ++ (name ++ (gap ++ ['(']))) ∧
      m.group? 1 = some ⟨left.size, Text.size (left ++ name)⟩ := by
  have htext : name ++ text = name ++ (gap ++ ['(']) ++ rest := by rw [hopens.1]; simp
  have hunique : ∀ w' r', name ++ (gap ++ ['(']) ++ rest = w' ++ r' → callPattern.Spans left w' r' →
      w' = name ++ (gap ++ ['(']) := by
    intro w' r' heq hspans
    obtain ⟨gap', rfl, hopens', -⟩ := call_of_spans hname.word hopens.startsWord (htext.trans heq) hspans
    rw [(hopens.unique hopens').1]
  obtain ⟨m, hm, hspan, hreads⟩ := exists_matchAt?_of_spans (spans_call hname hopens.2 hleft) hunique
  obtain ⟨name', gap', hafter, hbefore, hname', hgap', -, hmarks⟩ :=
    exists_call_of_reads (reads_numbered_iff.mpr hreads)
  dsimp only at hafter hmarks
  have hbehind : Text.OpensCall (gap' ++ '(' :: rest) gap' rest := ⟨rfl, hgap'⟩
  obtain ⟨rfl, -⟩ :=
    Text.eq_of_append_eq hname.word hname'.word hopens.startsWord hbehind.startsWord (htext.trans hafter)
  refine ⟨m, by rw [htext]; exact hm, by rw [hspan], ?_⟩
  rw [Match.group?, hmarks]
  rfl

/-- The search finds a name with a parenthesis behind it and goes on there, with the gap and the parenthesis to be
passed over. -/
theorem exists_findAllFrom_call {left name gap text rest : Text} {skip : Nat} (hskip : skip ≤ left.size)
    (hname : name.IsCallName) (hopens : text.OpensCall gap rest) (hleft : left.endsWord = false) :
    ∃ m, m.group? 1 = some ⟨left.size, Text.size (left ++ name)⟩ ∧
      callPattern.findAllFrom skip left.getLast? left.size (name ++ text)
        = m :: callPattern.findAllFrom (Text.size (left ++ name ++ (gap ++ ['('])))
            (left ++ name).getLast? (Text.size (left ++ name)) text := by
  obtain ⟨m, hm, hstop, hgroup⟩ := exists_matchAt?_call hname hopens hleft
  have htext : text = gap ++ ['('] ++ rest := by rw [hopens.1]; simp
  have hne : name ++ (gap ++ ['(']) ≠ [] := List.append_ne_nil_of_left_ne_nil hname.ne_nil _
  have hpass := findAllFrom_skip callPattern (Text.size (left ++ name ++ (gap ++ ['(']))) rest (gap ++ ['('])
    (left ++ name) (Nat.le_refl _)
  rw [htext, ← List.append_assoc] at hm
  rw [htext, hpass, ← List.append_assoc name, List.append_assoc left]
  exact ⟨m, hgroup, findAllFrom_match hskip hne hm hstop⟩

/-- Where no word starts there is no match. -/
theorem matchAt?_call_eq_none {left text : Text} (h : text.startsWord = false) :
    callPattern.matchAt? left.getLast? left.size text = none := by
  refine matchAt?_eq_none fun w r heq hspans => ?_
  obtain ⟨m, m', hreads⟩ := hspans
  obtain ⟨name, gap, hafter, -, hname, -⟩ := exists_call_of_reads hreads
  dsimp only at hafter
  rw [heq, hafter, Text.startsWord_append hname.ne_nil hname.word] at h
  cases h

/-- A word that cannot be called, or is not, is passed over as a whole. -/
theorem findAllFrom_call_word {left w rest : Text} (skip : Nat) (hw : ∀ c ∈ w, Text.isWord c = true)
    (hapart : rest.startsWord = false) (hnot : ¬(w.IsCallName ∧ ∃ gap r, rest.OpensCall gap r)) :
    callPattern.findAllFrom skip left.getLast? left.size (w ++ rest)
      = callPattern.findAllFrom skip (left ++ w).getLast? (Text.size (left ++ w)) rest := by
  refine findAllFrom_word skip hw (Q := fun v => v.IsCallName ∧ ∃ gap r, rest.OpensCall gap r) ?_ hnot
  intro l v w' r' _ hv heq h
  obtain ⟨gap, -, hopens, hname, hleft⟩ := call_of_spans hv hapart heq h
  exact ⟨⟨hname, gap, r', hopens⟩, hleft⟩

end Pattern

/-- A parenthesis follows some lexemes exactly if their text opens a call. -/
theorem Spells.parenFollows_iff {lexemes : List Lexeme} {text : Text} (h : Spells lexemes text) :
    parenFollows lexemes = true ↔ ∃ gap rest, text.OpensCall gap rest := by
  induction h with
  | nil => simp [parenFollows, Text.OpensCall]
  | @word w text rest hne hw hapart h ih =>
    refine ⟨fun hfollows => (Bool.false_ne_true hfollows).elim, fun hopens => ?_⟩
    obtain ⟨gap, r, hopens⟩ := hopens
    have hstart := hopens.startsWord
    rw [Text.startsWord_append hne hw] at hstart
    cases hstart
  | @other c text rest hc h ih =>
    rw [parenFollows]
    cases hblank : Text.isBlank c with
    | true =>
      rw [if_pos rfl, ih]
      constructor
      · intro hopens
        obtain ⟨gap, r, rfl, hgap⟩ := hopens
        exact ⟨c :: gap, r, rfl, by simpa [hblank] using hgap⟩
      · intro hopens
        obtain ⟨gap, r, htext, hgap⟩ := hopens
        cases gap with
        | nil =>
          obtain ⟨rfl, -⟩ := List.cons.inj htext
          exact absurd hblank (by decide)
        | cons d gap =>
          obtain ⟨rfl, rfl⟩ := List.cons.inj htext
          exact ⟨gap, r, rfl, fun e he => hgap e (List.mem_cons_of_mem c he)⟩
    | false =>
      rw [if_neg Bool.false_ne_true, beq_iff_eq]
      constructor
      · intro hparen
        exact ⟨[], text, by rw [hparen]; rfl, by simp⟩
      · intro hopens
        obtain ⟨gap, r, htext, hgap⟩ := hopens
        cases gap with
        | nil => exact (List.cons.inj htext).1
        | cons d gap =>
          rw [(List.cons.inj htext).1, hgap d List.mem_cons_self] at hblank
          cases hblank

/-- Whether a match for a call counts: its name is none of the words that are not called. -/
def countsAsCall (text : Text) (m : Match) : Bool :=
  !uncalledWords.contains (String.ofList (calledName text m))

/-- **The matches for calls** in the text of some lexemes are as many as these have call sites. The search may have
passed over some of the characters before the next word already. -/
theorem Spells.countP_findAllFrom_call {lexemes : List Lexeme} {text : Text} (h : Spells lexemes text) :
    ∀ {left gap rest : Text} {skip : Nat}, text = gap ++ rest → (∀ c ∈ gap, Text.isWord c = false) →
      skip ≤ Text.size (left ++ gap) → (left.endsWord = true → text.startsWord = false) →
      (callPattern.findAllFrom skip left.getLast? left.size text).countP (countsAsCall (left ++ text))
        = callSites lexemes := by
  induction h with
  | nil =>
    intro left gap rest skip htext _ hskip _
    obtain ⟨rfl, rfl⟩ := List.nil_eq_append_iff.mp htext
    rw [List.append_nil] at hskip
    rw [Pattern.findAllFrom, if_neg (by omega), Pattern.matchAt?_call_eq_none rfl]
    rfl
  | @other c text lexemes hc h ih =>
    intro left gap rest skip htext hgap hskip hbefore
    rw [Pattern.findAllFrom_step skip (Pattern.matchAt?_call_eq_none hc), callSites,
      show left ++ c :: text = left ++ [c] ++ text by simp]
    have hends : Text.endsWord (left ++ [c]) = true → text.startsWord = false := by
      rw [Text.endsWord_concat, hc]
      exact fun h => absurd h Bool.false_ne_true
    cases gap with
    | nil =>
      rw [List.append_nil] at hskip
      have hskip' : skip ≤ Text.size (left ++ [c] ++ []) := by
        rw [List.append_nil, Text.size_append]
        omega
      exact ih rfl (by simp) hskip' hends
    | cons d gap =>
      obtain ⟨rfl, rfl⟩ := List.cons.inj htext
      refine ih rfl (fun e he => hgap e (List.mem_cons_of_mem c he)) ?_ hends
      rw [List.append_assoc]
      exact hskip
  | @word w text lexemes hne hw hapart h ih =>
    intro left gap rest skip htext hgap hskip hbefore
    have hstart := Text.startsWord_append hne hw text
    have hleft : left.endsWord = false := by
      rw [hstart] at hbefore
      simpa using hbefore
    -- nothing of the word is passed over
    obtain rfl : gap = [] := by
      cases gap with
      | nil => rfl
      | cons d gap =>
        rw [htext] at hstart
        exact absurd ((hgap d List.mem_cons_self).symm.trans hstart) Bool.false_ne_true
    rw [List.append_nil] at hskip
    have hnext : left ++ (w ++ text) = left ++ w ++ text := (List.append_assoc left w text).symm
    rw [callSites]
    by_cases hcall : w.IsCallName ∧ ∃ gap r, text.OpensCall gap r
    · obtain ⟨hname, gap, r, hopens⟩ := hcall
      obtain ⟨m, hgroup, hfind⟩ := Pattern.exists_findAllFrom_call hskip hname hopens hleft
      have hgap' : ∀ c ∈ gap ++ ['('], Text.isWord c = false := by
        intro c hc
        rcases List.mem_append.mp hc with hc | hc
        · exact Text.isWord_of_isBlank (hopens.2 c hc)
        · rw [List.mem_singleton.mp hc]
          decide
      have htext' : text = gap ++ ['('] ++ r := by rw [hopens.1]; simp
      have hcounts : countsAsCall (left ++ w ++ text) m = !uncalledWords.contains (String.ofList w) := by
        rw [countsAsCall, calledName, hgroup, Option.bind_some, Text.slice?_size, Option.getD_some]
      rw [hfind, List.countP_cons, hnext, ih htext' hgap' (Nat.le_refl _) fun _ => hapart, hcounts, isCallable,
        hname.start, h.parenFollows_iff.mpr ⟨gap, r, hopens⟩, Bool.true_and, Bool.and_true, Nat.add_comm]
    · have hnot : ¬(isCallable w && parenFollows lexemes) = true := by
        rw [isCallable, Bool.and_eq_true, Bool.and_eq_true]
        exact fun hboth => hcall ⟨⟨hboth.1.1, hw⟩, h.parenFollows_iff.mp hboth.2⟩
      have hskip' : skip ≤ Text.size (left ++ w ++ []) := by
        rw [List.append_nil, Text.size_append]
        omega
      rw [Pattern.findAllFrom_call_word skip hw hapart hcall, hnext, if_neg hnot, Nat.zero_add]
      exact ih rfl (by simp) hskip' fun _ => hapart

theorem callSites_eq_countP (text : Text) :
    callSites (lexemes text) = (callPattern.findAll text).countP (countsAsCall text) := by
  have hcount : (callPattern.findAllFrom 0 (List.getLast? []) (Text.size []) text).countP (countsAsCall ([] ++ text))
      = callSites (lexemes text) :=
    (spells_lexemes text).countP_findAllFrom_call (List.nil_append text).symm (by simp) (Nat.zero_le _)
      fun h => absurd h (by decide)
  exact hcount.symm

/-- **The counts of a report** on some code are those of the matches of two patterns: all for branches, and those for
calls whose name counts. -/
theorem ComplexityReport.counts_matches (symbol : SymbolId) (code : Text) :
    (ComplexityReport.ofCode symbol code).branchPoints = (branchPattern.findAll code).length ∧
      (ComplexityReport.ofCode symbol code).callSites
        = (callPattern.findAll code).countP (countsAsCall code) :=
  ⟨branchPoints_eq_length code, callSites_eq_countP code⟩

example : (ComplexityReport.ofCode ⟨"f", "a.c", 1⟩ "if (a &&& f (b)) g\n(1x(c))".toList).callSites = 2 := by
  decide +kernel

end CodeAtlas
