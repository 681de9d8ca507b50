import CodeAtlas.Proofs.CodeViewLines

/-!
# The view of a view

What is found in a code view is cut out of it and read again. So a view has to be code through and through: no
comment, string or character literal may be left in it, and none may come about when what stood around a quote is
blanked. The quotes are the hard part. A quote that is kept opens no literal in the text, but spaces take the place of
other characters behind it, and more of them where a character is wide.

* `CodeView.Opens`: what a comment, a string or a literal starts with;
* `CodeView.Bare`: a text in which none of them starts;
* `CodeView.ClosesWithin.of_viewFrom`: a quote that is near in the view is at least as near in the text;
* `CodeView.viewFrom_bare`: a view is bare, in whatever mode it is entered;
* `CodeView.codeView_idempotent`: a second masking changes nothing.
-/

namespace CodeAtlas.CodeView

variable {family : RuleFamily}

/-! ### What is code through and through -/

/-- A comment, a string or a character literal starts with the character, before `rest`. -/
def Opens (family : RuleFamily) (c : Char) (rest : Text) : Prop :=
  match family with
  | .python => c = '#' ∨ c = '"' ∨ c = '\''
  | .cFamily | .generic =>
    (c = '/' ∧ (rest.head? = some '/' ∨ rest.head? = some '*')) ∨ c = '"' ∨ c = '\x60' ∨
      (c = '\'' ∧ literalLength rest ≠ 0)

/-- No comment, string or character literal starts in the text. -/
def Bare (family : RuleFamily) : Text → Prop
  | [] => True
  | c :: rest => ¬Opens family c rest ∧ Bare family rest

theorem opens_python (c : Char) (rest : Text) : Opens .python c rest ↔ c = '#' ∨ c = '"' ∨ c = '\'' :=
  Iff.rfl

theorem opens_of_ne_python (h : family ≠ .python) (c : Char) (rest : Text) :
    Opens family c rest ↔
      (c = '/' ∧ (rest.head? = some '/' ∨ rest.head? = some '*')) ∨ c = '"' ∨ c = '\x60' ∨
        (c = '\'' ∧ literalLength rest ≠ 0) := by
  cases family with
  | python => exact absurd rfl h
  | cFamily => exact Iff.rfl
  | generic => exact Iff.rfl

/-- What opens something is one of five characters, each of them one byte wide. -/
theorem Opens.mem {c : Char} {rest : Text} (h : Opens family c rest) : c ∈ ['/', '#', '"', '\x60', '\''] := by
  by_cases hfamily : family = .python
  · subst hfamily
    rcases (opens_python c rest).mp h with rfl | rfl | rfl <;> decide
  · rcases (opens_of_ne_python hfamily c rest).mp h with ⟨rfl, -⟩ | rfl | rfl | ⟨rfl, -⟩ <;> decide

/-- A character of code that opens nothing is kept, and the reader stays in code. -/
theorem advanceCode_of_not_opens {c : Char} {rest : Text} (h : ¬Opens family c rest) :
    advanceCode family c rest = (true, .code) := by
  by_cases hfamily : family = .python
  · subst hfamily
    rw [opens_python] at h
    rw [advanceCode_python]
    split_ifs <;> simp_all
  · rw [opens_of_ne_python hfamily] at h
    rw [advanceCode_of_ne_python hfamily]
    split_ifs <;> simp_all

/-- A character of code that opens something is blanked. -/
theorem advanceCode_of_opens {c : Char} {rest : Text} (h : Opens family c rest) :
    (advanceCode family c rest).1 = false := by
  by_cases hfamily : family = .python
  · subst hfamily
    rw [opens_python] at h
    rw [advanceCode_python]
    split_ifs <;> simp_all
  · rw [opens_of_ne_python hfamily] at h
    rw [advanceCode_of_ne_python hfamily]
    split_ifs with h1 h2 h3 h4 h5
    all_goals try rfl
    · -- a quote
      cases hlen : literalLength rest with
      | zero => simp_all
      | succ n => rfl
    · simp_all

theorem advance_code {c : Char} (hc : c ≠ '\n') (rest : Text) :
    advance family .code c rest = advanceCode family c rest := by
  simp [advance, hc]

/-- Besides line feeds, the reader keeps what it reads as code and what opens nothing there. -/
theorem advance_kept {mode : Mode} {c : Char} {rest : Text} (h : (advance family mode c rest).1 = true)
    (hc : c ≠ '\n') : mode = .code ∧ ¬Opens family c rest := by
  cases mode with
  | code =>
    refine ⟨rfl, fun hopens => ?_⟩
    rw [advance_code hc, advanceCode_of_opens hopens] at h
    cases h
  | quoted quote spans =>
    simp only [advance, beq_iff_eq, hc, if_false] at h
    split_ifs at h
  | blockComment =>
    simp only [advance, beq_iff_eq, hc, if_false] at h
    split_ifs at h
  | tripled quote =>
    simp only [advance, beq_iff_eq, hc, if_false] at h
    split_ifs at h
  | _ => simp [advance, hc] at h

/-- A text that is code through and through is its own view. -/
theorem Bare.codeView_eq {text : Text} (h : Bare family text) : codeView family text = text := by
  induction text with
  | nil => rfl
  | cons c rest ih =>
    have hadvance : advance family .code c rest = (true, .code) := by
      by_cases hc : c = '\n'
      · rw [hc]
        rfl
      · rw [advance_code hc, advanceCode_of_not_opens h.1]
    rw [codeView, viewFrom_cons, hadvance]
    exact congrArg (c :: ·) (ih h.2)

theorem bare_iff (text : Text) :
    Bare family text ↔ ∀ before c after, text = before ++ c :: after → ¬Opens family c after := by
  induction text with
  | nil => exact ⟨fun _ before c after h => by simp at h, fun _ => trivial⟩
  | cons d rest ih =>
    rw [Bare, ih]
    constructor
    · intro h before c after hsplit
      cases before with
      | nil =>
        obtain ⟨rfl, rfl⟩ := List.cons.inj hsplit
        exact h.1
      | cons e before => exact h.2 before c after (List.cons.inj hsplit).2
    · intro h
      exact ⟨h [] d rest rfl, fun before c after hsplit => h (d :: before) c after (by rw [hsplit]; rfl)⟩

/-! ### Quotes that are near -/

/-- What stands nowhere in a text stands nowhere behind its first character. -/
theorem not_infix_of_cons {part rest : Text} {c : Char} (h : ¬part <:+: c :: rest) : ¬part <:+: rest :=
  fun hmem => h (hmem.trans (List.suffix_cons c rest).isInfix)

theorem ClosesWithin.quote {n : Nat} (h : 0 < n) (rest : Text) : ClosesWithin n ('\'' :: rest) :=
  ⟨[], rest, rfl, h, by simp⟩

theorem ClosesWithin.pos {n : Nat} {text : Text} (h : ClosesWithin n text) : 0 < n := by
  obtain ⟨inside, rest, -, hshort, -⟩ := h
  omega

theorem ClosesWithin.mono {n m : Nat} {text : Text} (h : ClosesWithin n text) (hle : n ≤ m) :
    ClosesWithin m text := by
  obtain ⟨inside, rest, hsplit, hshort, hinside⟩ := h
  exact ⟨inside, rest, hsplit, by omega, hinside⟩

theorem ClosesWithin.cons {n : Nat} {text : Text} {c : Char} (h : ClosesWithin n text) (hquote : c ≠ '\'')
    (hline : c ≠ '\n') : ClosesWithin (n + 1) (c :: text) := by
  obtain ⟨inside, rest, rfl, hshort, hinside⟩ := h
  refine ⟨c :: inside, rest, rfl, by rw [List.length_cons]; omega, ?_⟩
  intro d hd
  rcases List.mem_cons.mp hd with rfl | hd
  · exact ⟨hquote, hline⟩
  · exact hinside d hd

/-- A quote that comes behind a piece without quotes is nearer by its length. -/
theorem ClosesWithin.behind {n : Nat} {piece text : Text} (h : ClosesWithin n (piece ++ text))
    (hpiece : '\'' ∉ piece) : ClosesWithin (n - piece.length) text ∧ '\n' ∉ piece := by
  obtain ⟨inside, rest, hsplit, hshort, hinside⟩ := h
  rcases List.append_eq_append_iff.mp hsplit with ⟨more, rfl, htext⟩ | ⟨more, hmore, hrest⟩
  · rw [List.length_append] at hshort
    refine ⟨⟨more, rest, htext, by omega, fun c hc => hinside c (List.mem_append_right _ hc)⟩, fun hline => ?_⟩
    exact (hinside '\n' (List.mem_append_left _ hline)).2 rfl
  · -- the quote would stand in the piece, or right behind it
    cases more with
    | nil =>
      rw [List.append_nil] at hmore
      subst hmore
      refine ⟨⟨[], rest, hrest.symm, by rw [List.length_nil]; omega, by simp⟩, fun hline => ?_⟩
      exact (hinside '\n' hline).2 rfl
    | cons d more =>
      rw [List.cons_append] at hrest
      rw [hmore, ← (List.cons.inj hrest).1] at hpiece
      exact absurd (List.mem_append_right _ List.mem_cons_self) hpiece

theorem quote_not_mem_blanks (c : Char) : '\'' ∉ blanks c := by
  intro h
  exact absurd (List.eq_of_mem_replicate h) (by decide)

theorem length_blanks_pos (c : Char) : 0 < (blanks c).length := by
  rw [blanks, List.length_replicate]
  exact c.utf8Size_pos

/-- Without a broken literal, the reader binds itself to blank no line feed. -/
theorem Sealed.advance (family : RuleFamily) {mode : Mode} {c : Char} {rest : Text} (h : Sealed mode (c :: rest))
    (hwhole : ¬['\'', '\\', '\n'] <:+: c :: rest) : Sealed (advance family mode c rest).2 rest := by
  rcases advance_sealed family h with hsealed | ⟨-, -, rfl, after, rfl, -⟩
  · exact hsealed
  · exact absurd (List.prefix_append ['\'', '\\', '\n'] after).isInfix hwhole

theorem Sealed.keeps_newline {mode : Mode} {rest : Text} (h : Sealed mode ('\n' :: rest)) :
    (CodeView.advance family mode '\n' rest).1 = true := by
  cases mode with
  | within n after =>
    obtain ⟨hn, -, hmem⟩ := h
    rw [show n = n - 1 + 1 from by omega, List.take_succ_cons] at hmem
    simp at hmem
  | _ => simp [CodeView.advance]

/-- What stands for a character in the view: at least one character, and a line feed for a line feed. -/
theorem exists_viewFrom_cons (family : RuleFamily) {mode : Mode} {c : Char} {rest : Text}
    (h : Sealed mode (c :: rest)) :
    ∃ piece : Text,
      viewFrom family mode (c :: rest) = piece ++ viewFrom family (CodeView.advance family mode c rest).2 rest ∧
      0 < piece.length ∧ (c ≠ '\'' → '\'' ∉ piece) ∧ (c = '\n' → '\n' ∈ piece) := by
  refine ⟨_, viewFrom_cons family mode c rest, ?_⟩
  split_ifs with hkept
  · refine ⟨Nat.one_pos, fun hquote hmem => ?_, fun hline => by simp [hline]⟩
    exact hquote (List.mem_singleton.mp hmem).symm
  · refine ⟨length_blanks_pos c, fun _ => quote_not_mem_blanks c, ?_⟩
    rintro rfl
    exact absurd h.keeps_newline hkept

/-- **Blanking brings no quote nearer.** A quote that is near in the view, with no line feed before it, is at least as
near in the text. -/
theorem ClosesWithin.of_viewFrom {text : Text} (hwhole : ¬['\'', '\\', '\n'] <:+: text) :
    ∀ {mode : Mode} {n : Nat}, Sealed mode text → ClosesWithin n (viewFrom family mode text) →
      ClosesWithin n text := by
  induction text with
  | nil =>
    intro mode n _ h
    exact h
  | cons c rest ih =>
    intro mode n hsealed h
    have hrest := not_infix_of_cons hwhole
    by_cases hquote : c = '\''
    · subst hquote
      exact .quote h.pos rest
    · obtain ⟨piece, hview, hpos, hfree, hline⟩ := exists_viewFrom_cons family hsealed
      rw [hview] at h
      obtain ⟨hbehind, hnewline⟩ := h.behind (hfree hquote)
      have hcloses := ih hrest (hsealed.advance family hwhole) hbehind
      have hnear := hcloses.pos
      exact (hcloses.cons hquote fun hc => hnewline (hline hc)).mono (by omega)

/-! ### Literals in the view -/

/-- A character literal follows a quote: a backslash, a character and soon a quote, or a character and a quote. -/
theorem literalLength_ne_zero_iff {text : Text} :
    literalLength text ≠ 0 ↔
      (∃ c rest, text = '\\' :: c :: rest ∧ ClosesWithin 10 rest) ∨
        ∃ c rest, text = c :: '\'' :: rest ∧ c ≠ '\\' ∧ c ≠ '\n' := by
  constructor
  · intro h
    cases text with
    | nil => exact absurd rfl h
    | cons d text =>
      by_cases hd : d = '\\'
      · subst hd
        cases text with
        | nil => exact absurd rfl h
        | cons c rest => exact .inl ⟨c, rest, rfl, closesWithin_of_literalLength h⟩
      · obtain ⟨-, hline, rest, rfl⟩ := literalLength_plain hd h
        exact .inr ⟨d, rest, rfl, hd, hline⟩
  · rintro (⟨c, text, rfl, inside, rest, rfl, hshort, hinside⟩ | ⟨c, rest, rfl, hback, hline⟩)
    · rw [literalLength_escape c hshort hinside]
      omega
    · have hthree : literalLength (c :: '\'' :: rest) = 3 := by
        unfold literalLength
        split <;> grind
      rw [hthree]
      decide

theorem blanks_eq_cons (c : Char) : blanks c = ' ' :: List.replicate (c.utf8Size - 1) ' ' := by
  have hpos := c.utf8Size_pos
  rw [blanks, show c.utf8Size = c.utf8Size - 1 + 1 from by omega, List.replicate_succ, Nat.add_sub_cancel]

/-- A view that starts with no space starts with the first character of the text. -/
theorem head?_of_viewFrom {mode : Mode} {text : Text} {d : Char} (h : (viewFrom family mode text).head? = some d)
    (hd : d ≠ ' ') : text.head? = some d := by
  cases text with
  | nil => exact h
  | cons c rest =>
    rw [viewFrom_cons] at h
    split_ifs at h with hkept
    · exact h
    · rw [blanks_eq_cons] at h
      exact absurd (Option.some.inj h).symm hd

/-- In code, a view starts with one character that stands for the first of the text: itself, or a space if something
opens there. -/
theorem exists_of_viewFrom_code {text view : Text} {d : Char} (hwhole : ¬['\'', '\\', '\n'] <:+: text)
    (h : viewFrom family .code text = d :: view) :
    ∃ c rest mode, text = c :: rest ∧ Sealed mode rest ∧ viewFrom family mode rest = view ∧
      (d = c ∨ Opens family c rest) := by
  cases text with
  | nil => cases h
  | cons c rest =>
    have hsealed : Sealed (CodeView.advance family .code c rest).2 rest := Sealed.advance family trivial hwhole
    rw [viewFrom_cons] at h
    split_ifs at h with hkept
    · obtain ⟨rfl, hview⟩ := List.cons.inj h
      exact ⟨c, rest, _, rfl, hsealed, hview, .inl rfl⟩
    · have hopens : Opens family c rest := by
        by_contra hnone
        by_cases hc : c = '\n'
        · subst hc
          exact hkept rfl
        · rw [advance_code hc, advanceCode_of_not_opens hnone] at hkept
          exact hkept rfl
      have hwidth : (['/', '#', '"', '\x60', '\''].all fun e => blanks e == [' ']) = true := by decide
      rw [beq_iff_eq.mp (List.all_eq_true.mp hwidth c hopens.mem)] at h
      exact ⟨c, rest, _, rfl, hsealed, (List.cons.inj h).2, .inr hopens⟩

/-- **No literal comes about.** Where the view of what follows a quote completes a literal, the text does. -/
theorem literalLength_of_viewFrom {rest : Text} (hwhole : ¬['\'', '\\', '\n'] <:+: rest)
    (h : literalLength (viewFrom family .code rest) ≠ 0) : literalLength rest ≠ 0 := by
  rw [literalLength_ne_zero_iff]
  rcases literalLength_ne_zero_iff.mp h with ⟨d, view, hview, hcloses⟩ | ⟨d, view, hview, hback, hline⟩
  · -- the backslash is that of the text, and behind it the reader is still in code
    obtain ⟨c, rest', mode, rfl, -, -, hc⟩ := exists_of_viewFrom_code hwhole hview
    have hrest := not_infix_of_cons hwhole
    have hslash : c = '\\' := by
      have hhead := head?_of_viewFrom (d := '\\') (by rw [hview]; rfl) (by decide)
      exact Option.some.inj hhead
    subst hslash
    have hadvance : CodeView.advance family .code '\\' rest' = (true, .code) := by
      rw [advance_code (by decide), advanceCode_of_not_opens fun hopens => absurd hopens.mem (by decide)]
    rw [viewFrom_cons, hadvance] at hview
    obtain ⟨e, rest'', mode', rfl, hsealed, rfl, -⟩ := exists_of_viewFrom_code hrest (List.cons.inj hview).2
    exact .inl ⟨e, rest'', rfl, hcloses.of_viewFrom (not_infix_of_cons hrest) hsealed⟩
  · obtain ⟨c, rest', mode, rfl, -, hrest', hc⟩ := exists_of_viewFrom_code hwhole hview
    have hquote := head?_of_viewFrom (d := '\'') (by rw [hrest']; rfl) (by decide)
    obtain ⟨tail, rfl⟩ := List.head?_eq_some_iff.mp hquote
    rcases hc with rfl | hopens
    · exact .inr ⟨d, tail, rfl, hback, hline⟩
    · refine .inr ⟨c, tail, rfl, ?_, ?_⟩
      · rintro rfl
        exact absurd hopens.mem (by decide)
      · rintro rfl
        exact absurd hopens.mem (by decide)

/-! ### The view is code -/

/-- A character that opens nothing in the text opens nothing before the view of what follows. -/
theorem not_opens_viewFrom {c : Char} {rest : Text} (hwhole : ¬['\'', '\\', '\n'] <:+: rest)
    (h : ¬Opens family c rest) : ¬Opens family c (viewFrom family .code rest) := by
  by_cases hfamily : family = .python
  · subst hfamily
    exact h
  · rw [opens_of_ne_python hfamily] at h ⊢
    rintro (⟨hc, hnext⟩ | hc | hc | ⟨hc, hlen⟩)
    · refine h (.inl ⟨hc, hnext.imp ?_ ?_⟩)
      · exact fun hhead => head?_of_viewFrom hhead (by decide)
      · exact fun hhead => head?_of_viewFrom hhead (by decide)
    · exact h (.inr (.inl hc))
    · exact h (.inr (.inr (.inl hc)))
    · exact h (.inr (.inr (.inr ⟨hc, literalLength_of_viewFrom hwhole hlen⟩)))

theorem bare_blanks_append (c : Char) {view : Text} (h : Bare family view) : Bare family (blanks c ++ view) := by
  rw [blanks]
  induction c.utf8Size with
  | zero => exact h
  | succ n ih => exact ⟨fun hopens => absurd hopens.mem (by decide), ih⟩

/-- **A view is code through and through**, in whatever mode the text is entered. -/
theorem viewFrom_bare {text : Text} (hwhole : ¬['\'', '\\', '\n'] <:+: text) :
    ∀ {mode : Mode}, Sealed mode text → Bare family (viewFrom family mode text) := by
  induction text with
  | nil =>
    intro mode _
    exact trivial
  | cons c rest ih =>
    intro mode hsealed
    have hrest := not_infix_of_cons hwhole
    have hbare := ih hrest (hsealed.advance family hwhole)
    rw [viewFrom_cons]
    split_ifs with hkept
    · refine ⟨?_, hbare⟩
      by_cases hc : c = '\n'
      · subst hc
        exact fun hopens => absurd hopens.mem (by decide)
      · obtain ⟨rfl, hnone⟩ := advance_kept hkept hc
        rw [advance_code hc, advanceCode_of_not_opens hnone]
        exact not_opens_viewFrom hrest hnone
    · exact bare_blanks_append c hbare

/-- **Masking is idempotent.** If no quote of a text is followed by a backslash and a line feed, then no comment,
string or character literal starts anywhere in its view, and a second masking leaves the view as it is. -/
theorem codeView_idempotent (family : RuleFamily) (text : Text) (h : ¬['\'', '\\', '\n'] <:+: text) :
    codeView family (codeView family text) = codeView family text ∧
    ∀ before c after, codeView family text = before ++ c :: after → ¬Opens family c after := by
  have hbare : Bare family (codeView family text) := viewFrom_bare h trivial
  exact ⟨hbare.codeView_eq, (bare_iff _).mp hbare⟩

/-- A lifetime, a string with a quote and a wide character in it, and an escaped quote. -/
def lifetimeAndLiteral : Text := "&'a \"é'\" '\\''x".toList

/-- The quote of the lifetime is kept, and in the view it opens no literal either. -/
theorem lifetimeAndLiteral_masked_twice :
    ¬['\'', '\\', '\n'] <:+: lifetimeAndLiteral ∧
    codeView .generic lifetimeAndLiteral = "&'a           x".toList ∧
    codeView .generic (codeView .generic lifetimeAndLiteral) = codeView .generic lifetimeAndLiteral ∧
    ¬Opens .generic '\'' "a           x".toList := by
  have hwhole : ¬['\'', '\\', '\n'] <:+: lifetimeAndLiteral := by decide +kernel
  have hview : codeView .generic lifetimeAndLiteral = "&'a           x".toList := by decide +kernel
  obtain ⟨htwice, hnone⟩ := codeView_idempotent .generic lifetimeAndLiteral hwhole
  exact ⟨hwhole, hview, htwice, hnone ['&'] '\'' _ hview⟩

end CodeAtlas.CodeView
