import CodeAtlas.Proofs.CodeViewOffsets
import CodeAtlas.Proofs.TextPieces
import Mathlib.Data.List.Forall2
import Mathlib.Data.List.Induction

/-!
# Line feeds in the code view

Line numbers that are found in the code view are used in the text. So the view has to keep the line feeds of
the text. It does, with one exception: a character literal that is broken after its backslash is blanked as
a whole, and its line feed with it.

* `CodeView.Sealed`, `CodeView.advance_sealed`: what the reader is bound to blank holds no line feed;
* `CodeView.BreaksLiteral`, `CodeView.modeAfter_sealed`: the one place where it does;
* `CodeView.Masks.segments`: a view with all line feeds masks the text line by line;
* `CodeView.codeView_keepsLines_iff`: which line feeds are lost, and when none is.
-/

namespace CodeAtlas

/-! ### Literals that are broken over two lines -/

namespace CodeView

/-- A quote stands among the next `n` characters, with neither a quote nor a line feed before it. -/
def ClosesWithin (n : Nat) (text : Text) : Prop :=
  ∃ inside rest, text = inside ++ '\'' :: rest ∧ inside.length < n ∧ ∀ c ∈ inside, c ≠ '\'' ∧ c ≠ '\n'

/-- The length of a literal that starts with a backslash and a character. -/
theorem literalLength_escape (c : Char) {inside rest : Text} (hshort : inside.length < 10)
    (hinside : ∀ c ∈ inside, c ≠ '\'' ∧ c ≠ '\n') :
    literalLength ('\\' :: c :: (inside ++ '\'' :: rest)) = inside.length + 4 := by
  have htail : ((c :: (inside ++ '\'' :: rest)).drop 1).take 10
      = inside ++ '\'' :: rest.take (9 - inside.length) := by
    rw [List.drop_succ_cons, List.drop_zero, List.take_append, List.take_of_length_le (by omega),
      show 10 - inside.length = (9 - inside.length) + 1 from by omega, List.take_succ_cons]
  have hfind : (inside ++ '\'' :: rest.take (9 - inside.length)).findIdx?
      (fun c => c == '\'' || c == '\n') = some inside.length := by
    rw [List.findIdx?_append, List.findIdx?_cons]
    have hnone : inside.findIdx? (fun c => c == '\'' || c == '\n') = none := by
      rw [List.findIdx?_eq_none_iff]
      intro c hc
      simp [hinside c hc]
    simp [hnone]
  rw [literalLength, htail, hfind]
  simp

/-- The part of a text up to the quote that closes a literal holds no line feed. -/
theorem newline_not_mem_take_closing {inside : Text} (rest : Text)
    (hinside : ∀ c ∈ inside, c ≠ '\'' ∧ c ≠ '\n') :
    '\n' ∉ (inside ++ '\'' :: rest).take (inside.length + 1) := by
  intro hmem
  rw [List.take_length_add_append, List.take_succ_cons, List.take_zero, List.mem_append,
    List.mem_singleton] at hmem
  rcases hmem with hmem | hmem
  · exact (hinside '\n' hmem).2 rfl
  · exact absurd hmem (by decide)

/-- A literal that starts with a backslash ends within the ten characters behind the escaped one. -/
theorem closesWithin_of_literalLength {c : Char} {text : Text}
    (h : literalLength ('\\' :: c :: text) ≠ 0) : ClosesWithin 10 text := by
  rw [literalLength, List.drop_succ_cons, List.drop_zero] at h
  cases hfind : (text.take 10).findIdx? (fun c => c == '\'' || c == '\n') with
  | none => rw [hfind] at h; exact absurd rfl h
  | some i =>
    obtain ⟨hi, hat, hbefore⟩ := List.findIdx?_eq_some_iff_getElem.mp hfind
    have hquote : (text.take 10)[i] = '\'' := by
      by_contra hne
      simp only [hfind, List.getElem?_eq_getElem hi, Option.some_beq_some, beq_iff_eq, if_neg hne] at h
      exact h rfl
    have hlen : i < text.length ∧ i < 10 := by
      rw [List.length_take] at hi
      omega
    refine ⟨text.take i, text.drop (i + 1), ?_, ?_, ?_⟩
    · rw [List.getElem_take] at hquote
      rw [← hquote, ← List.drop_eq_getElem_cons hlen.1, List.take_append_drop]
    · rw [List.length_take]
      omega
    · intro c hc
      obtain ⟨j, hj, rfl⟩ := List.getElem_of_mem hc
      rw [List.length_take] at hj
      have hj' := hbefore j (by omega)
      rw [List.getElem_take] at hj' ⊢
      simpa using hj'

/-- A literal without a backslash holds one character. -/
theorem literalLength_plain {c : Char} {text : Text} (hc : c ≠ '\\')
    (h : literalLength (c :: text) ≠ 0) :
    literalLength (c :: text) = 3 ∧ c ≠ '\n' ∧ ∃ rest, text = '\'' :: rest := by
  unfold literalLength at h ⊢
  split at h
  all_goals simp_all

/-- The characters of a literal after its first quote hold a line feed only behind a backslash. -/
theorem newline_not_mem_literal {n : Nat} {rest : Text} (h : literalLength rest = n + 1) :
    '\n' ∉ rest.take n ∨ ∃ after, rest = '\\' :: '\n' :: after ∧ ClosesWithin 10 after := by
  cases rest with
  | nil => cases h
  | cons d rest =>
    by_cases hd : d = '\\'
    · subst hd
      cases rest with
      | nil => cases h
      | cons e after =>
        have hnear := closesWithin_of_literalLength (by rw [h]; omega)
        by_cases he : e = '\n'
        · exact .inr ⟨after, by rw [he], hnear⟩
        · left
          obtain ⟨inside, tail, rfl, hshort, hinside⟩ := hnear
          rw [literalLength_escape e hshort hinside] at h
          rw [show n = inside.length + 1 + 1 + 1 from by omega, List.take_succ_cons, List.take_succ_cons]
          intro hmem
          rcases List.mem_cons.mp hmem with hmem | hmem
          · exact absurd hmem (by decide)
          · rcases List.mem_cons.mp hmem with hmem | hmem
            · exact he hmem.symm
            · exact newline_not_mem_take_closing tail hinside hmem
    · left
      obtain ⟨h3, hnl, tail, rfl⟩ := literalLength_plain hd (by rw [h]; omega)
      have hn : n = 2 := by omega
      subst hn
      simp [hnl.symm]

/-! ### What the reader is bound to blank -/

/-- Whether the reader is bound to blank the next characters. -/
def Mode.isBound : Mode → Bool
  | .within _ _ => true
  | _ => false

/-- The characters that the reader is bound to blank hold no line feed. -/
def Sealed : Mode → Text → Prop
  | .within n after, rest => 0 < n ∧ after.isBound = false ∧ '\n' ∉ rest.take n
  | _, _ => True

theorem sealed_of_not_isBound {mode : Mode} (h : mode.isBound = false) (rest : Text) :
    Sealed mode rest := by
  cases mode with
  | within n after => cases h
  | _ => trivial

theorem sealed_past {mode : Mode} (h : mode.isBound = false) {n : Nat} {rest : Text}
    (hrest : '\n' ∉ rest.take n) : Sealed (.past n mode) rest := by
  by_cases hn : n = 0
  · rw [Mode.past, if_pos hn]
    exact sealed_of_not_isBound h rest
  · rw [Mode.past, if_neg hn]
    exact ⟨by omega, h, hrest⟩

theorem newline_not_mem_take_one {rest : Text} {c : Char} (h : rest.head? = some c) (hc : c ≠ '\n') :
    '\n' ∉ rest.take 1 := by
  cases rest with
  | nil => simp
  | cons d rest =>
    have : d = c := by simpa using h
    simp [this, hc.symm]

theorem newline_not_mem_take_two {rest : Text} {c : Char} (h : rest.take 2 = [c, c]) (hc : c ≠ '\n') :
    '\n' ∉ rest.take 2 := by
  rw [h]
  simp [hc.symm]

theorem advanceCode_python (c : Char) (rest : Text) :
    advanceCode .python c rest
      = if c == '#' then (false, .lineComment)
        else if c == '"' || c == '\'' then
          if rest.take 2 == [c, c] then (false, .within 2 (.tripled c)) else (false, .quoted c false)
        else (true, .code) := rfl

theorem advanceCode_of_ne_python {family : RuleFamily} (h : family ≠ .python) (c : Char) (rest : Text) :
    advanceCode family c rest
      = if c == '/' && rest.head? == some '/' then (false, .within 1 .lineComment)
        else if c == '/' && rest.head? == some '*' then (false, .within 1 .blockComment)
        else if c == '"' then (false, .quoted c false)
        else if c == '\x60' then (false, .quoted c true)
        else if c == '\'' then
          match literalLength rest with
          | 0 => (true, .code)
          | n + 1 => (false, .past n .code)
        else (true, .code) := by
  cases family with
  | python => exact absurd rfl h
  | cFamily => rfl
  | generic => rfl

theorem advanceCode_sealed (family : RuleFamily) (c : Char) (rest : Text) (hc : c ≠ '\n') :
    Sealed (advanceCode family c rest).2 rest ∨
      (family ≠ .python ∧ c = '\'' ∧ ∃ after, rest = '\\' :: '\n' :: after ∧ ClosesWithin 10 after) := by
  by_cases hfamily : family = .python
  · left
    rw [hfamily, advanceCode_python]
    split_ifs with h1 h2 h3
    · trivial
    · exact ⟨by omega, rfl, newline_not_mem_take_two (by simpa using h3) hc⟩
    · trivial
    · trivial
  · rw [advanceCode_of_ne_python hfamily]
    split_ifs with h1 h2 h3 h4 h5
    · simp only [Bool.and_eq_true, beq_iff_eq] at h1
      exact .inl ⟨by omega, rfl, newline_not_mem_take_one h1.2 (by decide)⟩
    · simp only [Bool.and_eq_true, beq_iff_eq] at h2
      exact .inl ⟨by omega, rfl, newline_not_mem_take_one h2.2 (by decide)⟩
    · exact .inl trivial
    · exact .inl trivial
    · cases hlen : literalLength rest with
      | zero => exact .inl trivial
      | succ n =>
        rcases newline_not_mem_literal hlen with hno | hsplit
        · exact .inl (sealed_past rfl hno)
        · exact .inr ⟨hfamily, by simpa using h5, hsplit⟩
    · exact .inl trivial

/-- **One character**: the reader binds itself to blank a line feed only at the quote of a broken literal. -/
theorem advance_sealed (family : RuleFamily) {mode : Mode} {c : Char} {rest : Text}
    (h : Sealed mode (c :: rest)) :
    Sealed (advance family mode c rest).2 rest ∨
      (mode = .code ∧ family ≠ .python ∧ c = '\'' ∧
        ∃ after, rest = '\\' :: '\n' :: after ∧ ClosesWithin 10 after) := by
  by_cases hc : c = '\n'
  · left
    cases mode with
    | within n after =>
      obtain ⟨hn, -, hmem⟩ := h
      rw [show n = n - 1 + 1 from by omega, List.take_succ_cons] at hmem
      simp [hc] at hmem
    | quoted quote spans => cases spans <;> simp [advance, hc, Mode.afterLine, Sealed]
    | _ => simp [advance, hc, Mode.afterLine, Sealed]
  · cases mode with
    | within n after =>
      obtain ⟨hn, hafter, hmem⟩ := h
      rw [show n = n - 1 + 1 from by omega, List.take_succ_cons] at hmem
      exact .inl (sealed_past hafter fun hmem' => hmem (List.mem_cons_of_mem _ hmem'))
    | escaped quote spans => exact .inl trivial
    | code =>
      have hadvance : advance family .code c rest = advanceCode family c rest := by
        simp [advance, hc]
      rw [hadvance]
      exact (advanceCode_sealed family c rest hc).imp_right fun h => ⟨rfl, h⟩
    | lineComment => simp [advance, hc, Sealed]
    | blockComment =>
      left
      simp only [advance, beq_iff_eq, hc, if_false]
      split_ifs with h1
      · simp only [Bool.and_eq_true, beq_iff_eq] at h1
        exact ⟨by omega, rfl, newline_not_mem_take_one h1.2 (by decide)⟩
      · trivial
    | quoted quote spans =>
      left
      simp only [advance, beq_iff_eq, hc, if_false]
      split_ifs <;> trivial
    | tripled quote =>
      left
      simp only [advance, beq_iff_eq, hc, if_false]
      split_ifs with h1 h2 h3
      · trivial
      · refine ⟨by omega, rfl, ?_⟩
        cases rest with
        | nil => simp
        | cons d rest =>
          have : d ≠ '\n' := by simpa using h2
          simp [this.symm]
      · simp only [Bool.and_eq_true, beq_iff_eq] at h3
        exact ⟨by omega, rfl, newline_not_mem_take_two h3.2 (h3.1 ▸ hc)⟩
      · trivial

/-! ### The line feeds that are lost -/

theorem modeAfter_concat (family : RuleFamily) (before : Text) (c : Char) (rest : Text) :
    ∀ mode, modeAfter family mode (before ++ [c]) rest
      = (advance family (modeAfter family mode before (c :: rest)) c rest).2 := by
  induction before with
  | nil => intro mode; rfl
  | cons d before ih =>
    intro mode
    rw [List.cons_append, modeAfter, ih, modeAfter, List.append_assoc, List.singleton_append]

/-- A character literal is broken over two lines: after `before` the reader stands in code, and a quote, a
backslash and a line feed follow; `after` then closes the literal. -/
structure BreaksLiteral (family : RuleFamily) (before after : Text) : Prop where
  family_ne : family ≠ .python
  inCode : modeAfter family .code before ('\'' :: '\\' :: '\n' :: after) = .code
  closes : ClosesWithin 10 after

/-- The reader that has just seen the quote of a broken literal, and the one that has seen its backslash,
are bound to blank the line feed. -/
theorem BreaksLiteral.bound {family : RuleFamily} {before after : Text}
    (h : BreaksLiteral family before after) :
    ∃ n, '\n' ∉ after.take (n + 1) ∧
      modeAfter family .code (before ++ ['\'']) ('\\' :: '\n' :: after) = .within (n + 3) .code ∧
      modeAfter family .code (before ++ ['\'', '\\']) ('\n' :: after) = .within (n + 2) .code := by
  obtain ⟨inside, rest, rfl, hshort, hinside⟩ := h.closes
  have hquote : modeAfter family .code (before ++ ['\'']) ('\\' :: '\n' :: (inside ++ '\'' :: rest))
      = .within (inside.length + 3) .code := by
    rw [modeAfter_concat, h.inCode]
    have hadvance : advance family .code '\'' ('\\' :: '\n' :: (inside ++ '\'' :: rest))
        = advanceCode family '\'' ('\\' :: '\n' :: (inside ++ '\'' :: rest)) := by
      simp [advance]
    rw [hadvance, advanceCode_of_ne_python h.family_ne, literalLength_escape '\n' hshort hinside]
    simp [Mode.past]
  refine ⟨inside.length, ?_, hquote, ?_⟩
  · exact newline_not_mem_take_closing rest hinside
  · rw [show before ++ ['\'', '\\'] = (before ++ ['\'']) ++ ['\\'] from by simp, modeAfter_concat, hquote]
    rfl

/-- What the reader is bound to blank holds no line feed, unless it has just entered a broken literal. -/
theorem modeAfter_sealed (family : RuleFamily) (before : Text) :
    ∀ rest, Sealed (modeAfter family .code before rest) rest ∨
      ∃ start after, BreaksLiteral family start after ∧
        ((before = start ++ ['\''] ∧ rest = '\\' :: '\n' :: after) ∨
          (before = start ++ ['\'', '\\'] ∧ rest = '\n' :: after)) := by
  -- the text that is read grows at its end, so the text ahead is general
  induction before using List.reverseRecOn with
  | nil => intro rest; exact .inl trivial
  | append_singleton before c ih =>
    intro rest
    rcases ih (c :: rest) with hsealed | ⟨start, after, hbreaks, ⟨hbefore, hrest⟩ | ⟨hbefore, hrest⟩⟩
    · rcases advance_sealed family hsealed with hsealed | ⟨hcode, hfamily, rfl, after, rfl, hcloses⟩
      · rw [modeAfter_concat]
        exact .inl hsealed
      · exact .inr ⟨before, after, ⟨hfamily, hcode, hcloses⟩, .inl ⟨rfl, rfl⟩⟩
    · -- the backslash of a broken literal has been read
      obtain ⟨rfl, rfl⟩ := List.cons.inj hrest
      exact .inr ⟨start, after, hbreaks, .inr ⟨by rw [hbefore]; simp, rfl⟩⟩
    · -- its line feed has been read, and no other follows in it
      obtain ⟨rfl, rfl⟩ := List.cons.inj hrest
      obtain ⟨n, hnone, -, hmode⟩ := hbreaks.bound
      left
      rw [modeAfter_concat, hbefore, hmode]
      exact ⟨by omega, rfl, hnone⟩

/-- The reader keeps a line feed unless it is the one of a broken literal. -/
theorem advance_newline_iff (family : RuleFamily) (before after : Text) :
    (advance family (modeAfter family .code before ('\n' :: after)) '\n' after).1 = false
      ↔ ∃ start, before = start ++ ['\'', '\\'] ∧ BreaksLiteral family start after := by
  constructor
  · intro hblank
    rcases modeAfter_sealed family before ('\n' :: after) with
      hsealed | ⟨start, after', hbreaks, ⟨-, hrest⟩ | ⟨hbefore, hrest⟩⟩
    · generalize modeAfter family .code before ('\n' :: after) = mode at hsealed hblank
      cases mode with
      | within n mode =>
        obtain ⟨hn, -, hmem⟩ := hsealed
        rw [show n = n - 1 + 1 from by omega, List.take_succ_cons] at hmem
        simp at hmem
      | _ => simp [advance] at hblank
    · exact absurd (List.cons.inj hrest).1 (by decide)
    · rw [(List.cons.inj hrest).2]
      exact ⟨start, hbefore, hbreaks⟩
  · intro h
    obtain ⟨start, rfl, hbreaks⟩ := h
    obtain ⟨n, -, -, hmode⟩ := hbreaks.bound
    rw [hmode]
    rfl

/-! ### Line by line -/

namespace Masks

variable {view text : Text}

theorem newline_not_mem_blanks (c : Char) : '\n' ∉ blanks c := by
  rw [blanks]
  intro h
  exact absurd (List.eq_of_mem_replicate h) (by decide)

theorem count_newline_le (h : Masks view text) : view.count '\n' ≤ text.count '\n' := by
  induction h with
  | nil => exact Nat.le_refl _
  | keep c _ ih =>
    rw [List.count_cons, List.count_cons]
    omega
  | blank c _ ih =>
    rw [List.count_append, List.count_eq_zero.mpr (newline_not_mem_blanks c), List.count_cons]
    omega

end Masks

/-- A view with as many line feeds as the text masks it line by line. -/
theorem Masks.segments {view text : Text} (h : Masks view text)
    (hcount : view.count '\n' = text.count '\n') :
    List.Forall₂ Masks (Text.segments '\n' view) (Text.segments '\n' text) := by
  induction h with
  | nil => exact .cons .nil .nil
  | @keep c view text hrest ih =>
    have hcount : view.count '\n' = text.count '\n' := by
      rw [List.count_cons, List.count_cons] at hcount
      omega
    by_cases hc : c = '\n'
    · rw [Text.segments, if_pos hc, Text.segments, if_pos hc]
      exact .cons .nil (ih hcount)
    · obtain ⟨first, others, hview, hview'⟩ := Text.segments_cons hc view
      obtain ⟨first', others', htext, htext'⟩ := Text.segments_cons hc text
      have ih := ih hcount
      rw [hview, htext] at ih
      rw [hview', htext']
      cases ih with
      | cons hfirst hothers => exact .cons (.keep c hfirst) hothers
  | @blank c view text hrest ih =>
    -- a blanked line feed would leave the view with too few
    have hle := hrest.count_newline_le
    rw [List.count_append, List.count_eq_zero.mpr (newline_not_mem_blanks c), List.count_cons] at hcount
    have hc : c ≠ '\n' := by
      intro hc
      rw [if_pos (by simp [hc])] at hcount
      omega
    have hcount : view.count '\n' = text.count '\n' := by
      rw [if_neg (by simpa using hc)] at hcount
      omega
    obtain ⟨first, others, hview⟩ := List.exists_cons_of_ne_nil (Text.segments_ne_nil '\n' view)
    obtain ⟨first', others', htext, htext'⟩ := Text.segments_cons hc text
    have ih := ih hcount
    rw [hview, htext] at ih
    rw [Text.segments_append (newline_not_mem_blanks c) hview, htext']
    cases ih with
    | cons hfirst hothers => exact .cons (.blank c hfirst) hothers

/-- The view has the line feed after `before` exactly when the reader keeps it. -/
theorem codeView_newline_iff (family : RuleFamily) (before after : Text) :
    (codeView family (before ++ '\n' :: after)).bytes[before.bytes.length]? = some '\n'.toUInt8
      ↔ ¬ ∃ start, before = start ++ ['\'', '\\'] ∧ BreaksLiteral family start after := by
  obtain ⟨v, hv, hview⟩ := viewFrom_append family before ('\n' :: after) .code
  rw [← advance_newline_iff, codeView, hview, viewFrom_cons, Text.bytes_append, Text.bytes_append,
    ← hv.length_bytes, List.getElem?_append_right (Nat.le_refl _), Nat.sub_self]
  cases (advance family (modeAfter family .code before ('\n' :: after)) '\n' after).1 with
  | true => simp [Text.bytes_cons, show String.utf8EncodeChar '\n' = ['\n'.toUInt8] from by decide]
  | false =>
    have hblank : Text.bytes (blanks '\n') = [' '.toUInt8] := bytes_replicate_space 1
    have hne : ' '.toUInt8 ≠ '\n'.toUInt8 := by decide
    simp [hblank, hne]

/-- The view of a text keeps its lines: line feeds stand at the same offsets, and each line of the view masks
the line of the text. -/
structure KeepsLines (view text : Text) : Prop where
  newlines : ∀ i : Nat, view.bytes[i]? = some '\n'.toUInt8 ↔ text.bytes[i]? = some '\n'.toUInt8
  lines : List.Forall₂ Masks (Text.segments '\n' view) (Text.segments '\n' text)

/-- A view that has every line feed of the text keeps its lines. -/
theorem Masks.keepsLines {view text : Text} (h : Masks view text)
    (hkept : ∀ i : Nat, text.bytes[i]? = some '\n'.toUInt8 → view.bytes[i]? = some '\n'.toUInt8) :
    KeepsLines view text := by
  have hiff : ∀ i : Nat, view.bytes[i]? = some '\n'.toUInt8 ↔ text.bytes[i]? = some '\n'.toUInt8 :=
    fun i => ⟨fun hi => h.getElem?_bytes hi (by decide), hkept i⟩
  have hmap : view.bytes.map (· == '\n'.toUInt8) = text.bytes.map (· == '\n'.toUInt8) := by
    apply List.ext_getElem
    · rw [List.length_map, List.length_map, h.length_bytes]
    · intro i hi hi'
      rw [List.length_map] at hi hi'
      have hi'' := hiff i
      rw [List.getElem?_eq_getElem hi, List.getElem?_eq_getElem hi'] at hi''
      rw [List.getElem_map, List.getElem_map, Bool.eq_iff_iff]
      simpa using hi''
  refine ⟨hiff, h.segments ?_⟩
  have hcount := congrArg (List.countP id) hmap
  rw [List.countP_map, List.countP_map] at hcount
  rw [← Text.count_bytes_newline, ← Text.count_bytes_newline]
  exact hcount

/-- **Which line feeds the view keeps.** It has no line feed that the text does not have. It lacks exactly
those of the character literals that are broken after their backslash. So it keeps the lines of a text in
which no literal is broken, and of no other. -/
theorem codeView_keepsLines_iff (family : RuleFamily) (text : Text) :
    (∀ i : Nat, (codeView family text).bytes[i]? = some '\n'.toUInt8 →
      text.bytes[i]? = some '\n'.toUInt8) ∧
    (∀ before after, text = before ++ '\n' :: after →
      ((codeView family text).bytes[before.bytes.length]? ≠ some '\n'.toUInt8
        ↔ ∃ start, before = start ++ ['\'', '\\'] ∧ BreaksLiteral family start after)) ∧
    (KeepsLines (codeView family text) text
      ↔ ∀ before after, text = before ++ '\'' :: '\\' :: '\n' :: after →
          ¬ BreaksLiteral family before after) := by
  have hmasks := codeView_masks family text
  have hnewline : ∀ before after, text = before ++ '\n' :: after →
      ((codeView family text).bytes[before.bytes.length]? ≠ some '\n'.toUInt8
        ↔ ∃ start, before = start ++ ['\'', '\\'] ∧ BreaksLiteral family start after) := by
    intro before after htext
    rw [htext, ne_eq, codeView_newline_iff, not_not]
  refine ⟨fun i hi => hmasks.getElem?_bytes hi (by decide), hnewline, ?_, ?_⟩
  · intro hkeeps before after htext hbreaks
    have htext' : text = (before ++ ['\'', '\\']) ++ '\n' :: after := by rw [htext]; simp
    apply (hnewline _ _ htext').mpr ⟨before, rfl, hbreaks⟩
    exact (hkeeps.newlines _).mpr (Text.getElem?_bytes_eq_newline_iff.mpr ⟨_, _, htext', rfl⟩)
  · intro hnone
    apply hmasks.keepsLines
    intro i hi
    obtain ⟨before, after, htext, rfl⟩ := Text.getElem?_bytes_eq_newline_iff.mp hi
    by_contra hlost
    obtain ⟨start, hstart, hbreaks⟩ := (hnewline before after htext).mp hlost
    exact hnone start after (by rw [htext, hstart]; simp) hbreaks

/-- A string that goes on after an escaped line feed keeps its lines, a broken literal does not. -/
theorem codeView_string_and_literal :
    KeepsLines (codeView .generic ['"', '\\', '\n', '"']) ['"', '\\', '\n', '"'] ∧
      ∃ start, ['\'', '\\'] = start ++ ['\'', '\\'] ∧ BreaksLiteral .generic start ['\''] := by
  constructor
  · apply (codeView_keepsLines_iff .generic ['"', '\\', '\n', '"']).2.2.mpr
    intro before after htext
    have hquote : '\'' ∈ ['"', '\\', '\n', '"'] := by
      rw [htext]
      exact List.mem_append_right before List.mem_cons_self
    exact absurd hquote (by decide)
  · have hlost := (codeView_keepsLines_iff .generic ['\'', '\\', '\n', '\'']).2.1 ['\'', '\\'] ['\''] rfl
    exact hlost.mp (by decide)

/-- A character literal with an escaped line feed hides the end of its line. -/
theorem codeView_broken_literal :
    codeView .cFamily ['\'', '\\', '\n', '\''] = [' ', ' ', ' ', ' '] ∧
      ¬ KeepsLines (codeView .cFamily ['\'', '\\', '\n', '\'']) ['\'', '\\', '\n', '\''] := by
  refine ⟨by decide, fun h => ?_⟩
  have hnewline := (h.newlines 2).mpr (by decide)
  exact absurd hnewline (by decide)

end CodeView

end CodeAtlas
