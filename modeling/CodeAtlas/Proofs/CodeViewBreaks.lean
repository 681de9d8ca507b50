import CodeAtlas.Proofs.CodeViewTwice

/-!
# The view of a text that is broken at a line feed

A comment or a string that someone forgot to close could hide all the code below it. Most of them end with their line:
a comment that is opened by two slashes or a number sign, and a string in single or double quotes. This file shows that
nothing else reaches over the end of a line, except what is made for it and what a backslash carries over.

* `CodeView.EndsWithin`: the mode is over before the end of a text, or with it;
* `CodeView.literalLength_append_newline`: the look-ahead for a literal does not pass a line feed;
* `CodeView.advance_append_newline`: one character is read in the same way, whatever the lines below are;
* `CodeView.codeView_append_newline`: the view of two texts with a line feed between them.
-/

namespace CodeAtlas.CodeView

variable {family : RuleFamily}

/-- Nothing starts in the text that goes on over the end of a line: no comment that a star and a slash end and no string
in backticks, or no string in triple quotes. -/
def KeepsToLines (family : RuleFamily) (text : Text) : Prop :=
  match family with
  | .python => ¬['"', '"', '"'] <:+: text ∧ ¬['\'', '\'', '\''] <:+: text
  | .cFamily | .generic => ¬['/', '*'] <:+: text ∧ '\x60' ∉ text

theorem keepsToLines_of_ne_python (h : family ≠ .python) (text : Text) :
    KeepsToLines family text ↔ ¬['/', '*'] <:+: text ∧ '\x60' ∉ text := by
  cases family with
  | python => exact absurd rfl h
  | cFamily => exact Iff.rfl
  | generic => exact Iff.rfl

theorem KeepsToLines.of_cons {c : Char} {rest : Text} (h : KeepsToLines family (c :: rest)) :
    KeepsToLines family rest := by
  by_cases hfamily : family = .python
  · subst hfamily
    exact ⟨not_infix_of_cons h.1, not_infix_of_cons h.2⟩
  · rw [keepsToLines_of_ne_python hfamily] at h ⊢
    exact ⟨not_infix_of_cons h.1, fun hmem => h.2 (List.mem_cons_of_mem c hmem)⟩

/-- What the reader is inside of is over before the text ends, or with the end of its last line. -/
def EndsWithin : Mode → Text → Prop
  | .code, _ | .lineComment, _ => True
  | .quoted _ spans, _ => spans = false
  | .escaped _ spans, text => spans = false ∧ text ≠ []
  | .within n after, text => 0 < n ∧ n ≤ text.length ∧ (after = .code ∨ after = .lineComment)
  | .blockComment, _ | .tripled _, _ => False

theorem endsWithin_past {n : Nat} {after : Mode} {text : Text} (hn : n ≤ text.length)
    (hafter : after = .code ∨ after = .lineComment) : EndsWithin (.past n after) text := by
  rw [Mode.past]
  split_ifs with hzero
  · rcases hafter with rfl | rfl <;> trivial
  · exact ⟨by omega, hn, hafter⟩

/-! ### Looking ahead -/

/-- Of a text before a line feed, the first character is the one that is found there, unless that is a line feed. -/
theorem exists_of_append_newline_eq_cons {text below rest : Text} {c : Char} (hc : c ≠ '\n')
    (h : text ++ '\n' :: below = c :: rest) : ∃ tail, text = c :: tail ∧ tail ++ '\n' :: below = rest := by
  cases text with
  | nil => exact absurd (List.cons.inj h).1.symm hc
  | cons d text =>
    obtain ⟨rfl, hrest⟩ := List.cons.inj h
    exact ⟨text, rfl, hrest⟩

theorem head?_append_newline {text : Text} {c : Char} (hc : c ≠ '\n') (below : Text) :
    (text ++ '\n' :: below).head? = some c ↔ text.head? = some c := by
  cases text with
  | nil => simpa using Ne.symm hc
  | cons d text => exact Iff.rfl

/-- A quote that comes before all line feeds stands on the first line. -/
theorem ClosesWithin.of_append_newline {n : Nat} {text below : Text} (h : ClosesWithin n (text ++ '\n' :: below)) :
    ClosesWithin n text := by
  obtain ⟨inside, rest, hsplit, hshort, hinside⟩ := h
  rcases List.append_eq_append_iff.mp hsplit with ⟨more, rfl, hmore⟩ | ⟨more, htext, hmore⟩
  · -- the quote cannot stand behind the line feed
    cases more with
    | nil => exact absurd (List.cons.inj hmore).1 (by decide)
    | cons d more =>
      obtain ⟨rfl, -⟩ := List.cons.inj hmore
      exact absurd rfl (hinside '\n' (by simp)).2
  · cases more with
    | nil => exact absurd (List.cons.inj hmore).1 (by decide)
    | cons d more =>
      obtain ⟨rfl, -⟩ := List.cons.inj hmore
      exact ⟨inside, more, htext, hshort, hinside⟩

/-- The look-ahead behind a quote does not pass a line feed, unless a backslash stands directly before it. -/
theorem literalLength_append_newline {text : Text} (h : text ≠ ['\\']) (below : Text) :
    literalLength (text ++ '\n' :: below) = literalLength text := by
  by_cases hnone : literalLength text = 0
  · rw [hnone]
    by_contra hne
    rcases literalLength_ne_zero_iff.mp hne with ⟨c, rest, hsplit, hcloses⟩ | ⟨c, rest, hsplit, hback, hline⟩
    · -- a backslash, another character of the text and a quote that is near
      obtain ⟨tail, rfl, htail⟩ := exists_of_append_newline_eq_cons (by decide) hsplit
      cases tail with
      | nil => exact h rfl
      | cons d tail =>
        obtain ⟨rfl, rfl⟩ := List.cons.inj htail
        exact literalLength_ne_zero_iff.mpr (.inl ⟨d, tail, rfl, hcloses.of_append_newline⟩) hnone
    · obtain ⟨tail, rfl, htail⟩ := exists_of_append_newline_eq_cons hline hsplit
      obtain ⟨tail', rfl, -⟩ := exists_of_append_newline_eq_cons (by decide) htail
      exact literalLength_ne_zero_iff.mpr (.inr ⟨c, tail', rfl, hback, hline⟩) hnone
  · rcases literalLength_ne_zero_iff.mp hnone with
      ⟨c, rest, rfl, inside, tail, rfl, hshort, hinside⟩ | ⟨c, rest, rfl, hback, hline⟩
    · have hshift : '\\' :: c :: (inside ++ '\'' :: tail) ++ '\n' :: below
          = '\\' :: c :: (inside ++ '\'' :: (tail ++ '\n' :: below)) := by simp
      rw [hshift, literalLength_escape c hshort hinside, literalLength_escape c hshort hinside]
    · rw [(literalLength_plain hback hnone).1]
      refine (literalLength_plain hback ?_).1
      exact literalLength_ne_zero_iff.mpr (.inr ⟨c, rest ++ '\n' :: below, rfl, hback, hline⟩)

/-- A literal lies within the text. -/
theorem literalLength_le (text : Text) : literalLength text ≤ text.length + 1 := by
  by_cases hnone : literalLength text = 0
  · omega
  · rcases literalLength_ne_zero_iff.mp hnone with
      ⟨c, rest, rfl, inside, tail, rfl, hshort, hinside⟩ | ⟨c, rest, rfl, hback, hline⟩
    · rw [literalLength_escape c hshort hinside]
      simp only [List.length_cons, List.length_append]
      omega
    · rw [(literalLength_plain hback hnone).1]
      simp

/-! ### Reading one character -/

/-- The triple quote that the reader looks for would stand in the text. -/
theorem not_take_two {c : Char} {rest : Text} (hc : c = '"' ∨ c = '\'') (h : KeepsToLines .python (c :: rest)) :
    rest.take 2 ≠ [c, c] := by
  intro htake
  have hsplit : c :: rest = [c, c, c] ++ rest.drop 2 := by
    rw [← List.take_append_drop 2 rest, htake]
    simp
  have hinfix : [c, c, c] <:+: c :: rest := by
    rw [hsplit]
    exact (List.prefix_append _ _).isInfix
  rcases hc with rfl | rfl
  · exact h.1 hinfix
  · exact h.2 hinfix

theorem take_two_append_newline {c : Char} (hc : c ≠ '\n') (rest below : Text) (h : rest.take 2 ≠ [c, c]) :
    (rest ++ '\n' :: below).take 2 ≠ [c, c] := by
  match rest with
  | [] => simpa using fun hnewline => absurd hnewline.symm hc
  | [d] => simpa using fun _ hnewline => absurd hnewline.symm hc
  | d :: e :: rest => simpa using h

/-- **One character of code** is read in the same way, whatever the lines below are, and what it opens ends before
them. -/
theorem advanceCode_append_newline {c : Char} {rest : Text} (hc : c ≠ '\n')
    (hlast : (c :: rest).getLast? ≠ some '\\') (hkeeps : KeepsToLines family (c :: rest)) (below : Text) :
    advanceCode family c (rest ++ '\n' :: below) = advanceCode family c rest ∧
      EndsWithin (advanceCode family c rest).2 rest := by
  by_cases hfamily : family = .python
  · subst hfamily
    rw [advanceCode_python, advanceCode_python]
    by_cases hquote : c = '"' ∨ c = '\''
    · have hnone := not_take_two hquote hkeeps
      have hnone' := take_two_append_newline hc rest below hnone
      rcases hquote with rfl | rfl
      · simp [hnone, hnone', EndsWithin]
      · simp [hnone, hnone', EndsWithin]
    · rw [not_or] at hquote
      by_cases hcomment : c = '#'
      · simp [hcomment, EndsWithin]
      · simp [hcomment, hquote, EndsWithin]
  · rw [keepsToLines_of_ne_python hfamily] at hkeeps
    have hstar : c = '/' → rest.head? ≠ some '*' := by
      rintro rfl hhead
      obtain ⟨tail, rfl⟩ := List.head?_eq_some_iff.mp hhead
      exact hkeeps.1 (List.prefix_append ['/', '*'] tail).isInfix
    have hback : c ≠ '\x60' := fun hback => hkeeps.2 (hback ▸ List.mem_cons_self)
    have hhead : ∀ {d : Char}, d ≠ '\n' → ((rest ++ '\n' :: below).head? == some d) = (rest.head? == some d) := by
      intro d hd
      rw [Bool.eq_iff_iff, beq_iff_eq, beq_iff_eq]
      exact head?_append_newline hd below
    have hliteral : c = '\'' → literalLength (rest ++ '\n' :: below) = literalLength rest := by
      rintro rfl
      refine literalLength_append_newline ?_ below
      rintro rfl
      exact hlast rfl
    rw [advanceCode_of_ne_python hfamily, advanceCode_of_ne_python hfamily, hhead (by decide), hhead (by decide)]
    split_ifs with h1 h2 h3 h4 h5
    · -- two slashes
      rw [Bool.and_eq_true, beq_iff_eq, beq_iff_eq] at h1
      obtain ⟨tail, rfl⟩ := List.head?_eq_some_iff.mp h1.2
      exact ⟨rfl, by decide, by simp, .inr rfl⟩
    · rw [Bool.and_eq_true, beq_iff_eq, beq_iff_eq] at h2
      exact absurd h2.2 (hstar h2.1)
    · exact ⟨rfl, rfl⟩
    · exact absurd (beq_iff_eq.mp h4) hback
    · -- a quote, which may open a literal
      rw [hliteral (beq_iff_eq.mp h5)]
      have hle := literalLength_le rest
      cases hlen : literalLength rest with
      | zero => exact ⟨rfl, trivial⟩
      | succ n => exact ⟨rfl, endsWithin_past (by omega) (.inl rfl)⟩
    · exact ⟨rfl, trivial⟩

/-- **One character** is read in the same way, whatever the lines below are. -/
theorem advance_append_newline {mode : Mode} {c : Char} {rest : Text} (hmode : EndsWithin mode (c :: rest))
    (hlast : (c :: rest).getLast? ≠ some '\\') (hkeeps : KeepsToLines family (c :: rest)) (below : Text) :
    advance family mode c (rest ++ '\n' :: below) = advance family mode c rest ∧
      EndsWithin (advance family mode c rest).2 rest := by
  cases mode with
  | within n after =>
    obtain ⟨hpos, hle, hafter⟩ := hmode
    rw [List.length_cons] at hle
    exact ⟨rfl, endsWithin_past (by omega) hafter⟩
  | escaped quote spans => exact ⟨rfl, hmode.1⟩
  | code =>
    by_cases hc : c = '\n'
    · subst hc
      exact ⟨rfl, trivial⟩
    · rw [advance_code hc, advance_code hc]
      exact advanceCode_append_newline hc hlast hkeeps below
  | lineComment =>
    refine ⟨rfl, ?_⟩
    simp only [advance]
    split_ifs <;> trivial
  | quoted quote spans =>
    refine ⟨rfl, ?_⟩
    subst hmode
    simp only [advance]
    split_ifs with h1 h2 h3
    · trivial
    · -- a backslash is not the last character
      refine ⟨rfl, ?_⟩
      rintro rfl
      exact hlast (by rw [beq_iff_eq.mp h2]; rfl)
    · trivial
    · exact rfl
  | blockComment => exact hmode.elim
  | tripled quote => exact hmode.elim

/-! ### Reading on below -/

/-- What ends with its line leaves the reader in code on the line below. -/
theorem advance_newline_of_endsWithin {mode : Mode} (h : EndsWithin mode []) (below : Text) :
    advance family mode '\n' below = (true, .code) := by
  cases mode with
  | code => rfl
  | lineComment => rfl
  | quoted quote spans =>
    subst h
    rfl
  | escaped quote spans => exact absurd rfl h.2
  | within n after =>
    have hle := h.2.1
    rw [List.length_nil] at hle
    have hpos := h.1
    omega
  | blockComment => exact h.elim
  | tripled quote => exact h.elim

/-- **Reading line by line**: the reader comes to the line feed with nothing left open that it would carry over. -/
theorem viewFrom_append_newline (text below : Text) :
    ∀ {mode : Mode}, EndsWithin mode text → text.getLast? ≠ some '\\' → KeepsToLines family text →
      viewFrom family mode (text ++ '\n' :: below)
        = viewFrom family mode text ++ '\n' :: viewFrom family .code below := by
  induction text with
  | nil =>
    intro mode hmode _ _
    rw [List.nil_append, viewFrom_cons, advance_newline_of_endsWithin hmode]
    rfl
  | cons c rest ih =>
    intro mode hmode hlast hkeeps
    obtain ⟨hsame, hnext⟩ := advance_append_newline hmode hlast hkeeps below
    have hlast' : rest.getLast? ≠ some '\\' := by
      cases rest with
      | nil => simp
      | cons d rest => rwa [List.getLast?_cons_cons] at hlast
    rw [List.cons_append, viewFrom_cons, viewFrom_cons, hsame, ih hnext hlast' hkeeps.of_cons, List.append_assoc]

/-- **What is left open on a line hides nothing below it.** Let a text not end with a backslash, and let nothing start
in it that is made to go on over the end of a line. Then the view of the text with more lines below is its own view,
with the view of those lines below. -/
theorem codeView_append_newline (family : RuleFamily) (text below : Text) (hlast : text.getLast? ≠ some '\\')
    (hkeeps : KeepsToLines family text) :
    codeView family (text ++ '\n' :: below) = codeView family text ++ '\n' :: codeView family below :=
  viewFrom_append_newline text below trivial hlast hkeeps

/-- A string that is never closed, an apostrophe with a backslash near the end, and a comment. -/
def unclosedQuotes : Text := "\"a\\\"b\n'\\x // c".toList

/-- The string and the comment end with their lines, and the literal below does not reach up to them. -/
theorem unclosedQuotes_hide_nothing :
    unclosedQuotes.getLast? ≠ some '\\' ∧ KeepsToLines .cFamily unclosedQuotes ∧
    codeView .cFamily (unclosedQuotes ++ '\n' :: "'d' e".toList)
      = codeView .cFamily unclosedQuotes ++ '\n' :: codeView .cFamily "'d' e".toList ∧
    codeView .cFamily (unclosedQuotes ++ '\n' :: "'d' e".toList) = "     \n'\\x     \n    e".toList := by
  have hlast : unclosedQuotes.getLast? ≠ some '\\' := by decide
  have hkeeps : KeepsToLines .cFamily unclosedQuotes := ⟨by decide +kernel, by decide +kernel⟩
  exact ⟨hlast, hkeeps, codeView_append_newline .cFamily unclosedQuotes _ hlast hkeeps, by decide +kernel⟩

end CodeAtlas.CodeView
