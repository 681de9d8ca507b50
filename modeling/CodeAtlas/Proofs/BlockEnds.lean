import CodeAtlas.Extraction
import CodeAtlas.Proofs.SourceLines

/-!
# Where headers and blocks end

The ends of headers and blocks are found by counting brackets. This file says what stands at the offsets that
are found, and how the brackets lie in one another.

* `closing?_spec`: the partner of a bracket, and what lies between the two;
* `count_lt_of_le_closing?`: the count of open brackets never falls below zero;
* `closing?_nested`: a bracket inside of a pair is closed inside of it;
* `standsAt_of_bodyOpen?`, `Python.exists_headerColon?`: the ends of headers.
-/

namespace CodeAtlas

/-! ### Pairs of brackets -/

section Closing

variable {opener closer : Char}

/-- Between a bracket and its partner, as many brackets are closed as opened. -/
theorem closingFrom?_spec {close : Nat} (hne : opener ≠ closer) (text : Text) :
    ∀ {depth offset : Nat}, 0 < depth → closingFrom? opener closer depth offset text = some close →
      ∃ inner after, text = inner ++ closer :: after ∧ close = offset + Text.size inner ∧
        inner.count closer + 1 = depth + inner.count opener := by
  induction text with
  | nil => intro depth offset _ h; cases h
  | cons c rest ih =>
    intro depth offset hdepth h
    rw [closingFrom?] at h
    by_cases ho : c = opener
    · subst ho
      rw [if_pos (beq_self_eq_true c)] at h
      obtain ⟨inner, after, rfl, rfl, hcount⟩ := ih (by omega) h
      refine ⟨c :: inner, after, rfl, by rw [Text.size_cons]; omega, ?_⟩
      rw [List.count_cons_self, List.count_cons_of_ne hne]
      omega
    · rw [if_neg (by simpa using ho)] at h
      by_cases hc : c = closer
      · subst hc
        rw [if_pos (beq_self_eq_true c)] at h
        split_ifs at h with hone
        · cases h
          refine ⟨[], rest, rfl, rfl, ?_⟩
          rw [List.count_nil, List.count_nil]
          omega
        · obtain ⟨inner, after, rfl, rfl, hcount⟩ := ih (by omega) h
          refine ⟨c :: inner, after, rfl, by rw [Text.size_cons]; omega, ?_⟩
          rw [List.count_cons_self, List.count_cons_of_ne (Ne.symm hne)]
          omega
      · rw [if_neg (by simpa using hc)] at h
        obtain ⟨inner, after, rfl, rfl, hcount⟩ := ih hdepth h
        refine ⟨c :: inner, after, rfl, by rw [Text.size_cons]; omega, ?_⟩
        rw [List.count_cons_of_ne ho, List.count_cons_of_ne hc]
        exact hcount

/-- Where more brackets are closed than opened, the open ones have been closed before. -/
theorem exists_closingFrom?_of_count (hne : opener ≠ closer) (inner rest : Text) :
    ∀ depth offset : Nat, 0 < depth → depth + inner.count opener ≤ inner.count closer →
      ∃ close, closingFrom? opener closer depth offset (inner ++ rest) = some close ∧
        close < offset + inner.size := by
  induction inner with
  | nil =>
    intro depth offset hdepth hcount
    rw [List.count_nil, List.count_nil] at hcount
    omega
  | cons c inner ih =>
    intro depth offset hdepth hcount
    have hsize := c.utf8Size_pos
    rw [List.cons_append, closingFrom?, Text.size_cons]
    by_cases ho : c = opener
    · subst ho
      rw [List.count_cons_self, List.count_cons_of_ne hne] at hcount
      rw [if_pos (beq_self_eq_true c)]
      obtain ⟨close, hclose, hlt⟩ := ih (depth + 1) (offset + c.utf8Size) (by omega) (by omega)
      exact ⟨close, hclose, by omega⟩
    · rw [if_neg (by simpa using ho)]
      by_cases hc : c = closer
      · subst hc
        rw [List.count_cons_self, List.count_cons_of_ne (Ne.symm hne)] at hcount
        rw [if_pos (beq_self_eq_true c)]
        split_ifs with hone
        · exact ⟨offset, rfl, by omega⟩
        · obtain ⟨close, hclose, hlt⟩ := ih (depth - 1) (offset + c.utf8Size) (by omega) (by omega)
          exact ⟨close, hclose, by omega⟩
      · rw [List.count_cons_of_ne ho, List.count_cons_of_ne hc] at hcount
        rw [if_neg (by simpa using hc)]
        obtain ⟨close, hclose, hlt⟩ := ih depth (offset + c.utf8Size) hdepth hcount
        exact ⟨close, hclose, by omega⟩

theorem closing?_size (before rest : Text) :
    closing? opener closer (before ++ opener :: rest) before.size
      = closingFrom? opener closer 1 (before.size + opener.utf8Size) rest := by
  simp [closing?, Text.seek_size]

theorem closing?_spec (hne : opener ≠ closer) {code : Text} {position close : Nat}
    (h : closing? opener closer code position = some close) :
    ∃ before inner after, code = before ++ opener :: (inner ++ closer :: after) ∧ position = before.size ∧
      close = (before ++ opener :: inner).size ∧ inner.count closer = inner.count opener := by
  obtain ⟨before, after, hcode, hseek, -⟩ := Text.exists_seekFrom position code 0
  rw [Nat.zero_add] at hseek
  rw [closing?, Text.seek, hseek] at h
  cases after with
  | nil => cases h
  | cons c rest =>
    dsimp only at h
    split_ifs at h with hc
    rw [Bool.and_eq_true, beq_iff_eq, beq_iff_eq] at hc
    obtain ⟨inner, after, rfl, rfl, hcount⟩ := closingFrom?_spec hne rest (by omega) h
    refine ⟨before, inner, after, by rw [hcode, hc.2], hc.1.symm, ?_, by omega⟩
    rw [Text.size_append, Text.size_cons, hc.2]
    omega

/-- **Depth stays positive.** The scan from a bracket comes to a closing one only while more brackets have been
opened than closed. -/
theorem count_lt_of_le_closing? (hne : opener ≠ closer) {code before inner after : Text}
    (hcode : code = before ++ opener :: (inner ++ closer :: after))
    (hreached : ∀ close, closing? opener closer code before.size = some close →
      (before ++ opener :: inner).size ≤ close) :
    inner.count closer < (opener :: inner).count opener := by
  by_contra hcount
  rw [List.count_cons_self] at hcount
  obtain ⟨close, hclose, hlt⟩ := exists_closingFrom?_of_count hne inner (closer :: after)
    1 (before.size + opener.utf8Size) (by omega) (by omega)
  rw [hcode, closing?_size] at hreached
  have hle := hreached close hclose
  rw [Text.size_append, Text.size_cons] at hle
  omega

/-- **Pairs nest.** A bracket that is opened inside of a pair is closed inside of it. -/
theorem closing?_nested (hne : opener ≠ closer) {code : Text} {outer close inside : Nat}
    (houter : closing? opener closer code outer = some close) (hinside : code.StandsAt opener inside)
    (hafter : outer < inside) (hbefore : inside < close) :
    ∃ close', closing? opener closer code inside = some close' ∧ inside < close' ∧ close' < close := by
  obtain ⟨before, inner, after, hcode, rfl, hclose, hcount⟩ := closing?_spec hne houter
  obtain ⟨left, right, hcode', rfl⟩ := hinside
  have hopener := opener.utf8Size_pos
  -- the inner bracket stands between the two others
  obtain ⟨u, w, hleft, hinner⟩ : ∃ u w, left = before ++ opener :: u ∧ inner = u ++ opener :: w := by
    obtain ⟨u, rfl, hrest⟩ := Text.exists_cons_of_size_lt (hcode.symm.trans hcode') hafter
    rw [hclose] at hbefore
    simp only [Text.size_append, Text.size_cons] at hbefore
    obtain ⟨w, rfl, -⟩ := Text.exists_cons_of_size_lt hrest.symm (by omega)
    exact ⟨u, w, rfl, rfl⟩
  subst hleft
  subst hinner
  -- up to it no more brackets are closed than opened, so behind it more are closed
  have hu : u.count closer ≤ u.count opener := by
    by_contra hlt
    obtain ⟨close', hclose', hlt'⟩ := exists_closingFrom?_of_count hne u
      (opener :: w ++ closer :: after) 1 (before.size + opener.utf8Size) (by omega) (by omega)
    rw [hcode, closing?_size, List.append_assoc, hclose'] at houter
    cases houter
    simp only [Text.size_append, Text.size_cons] at hclose
    omega
  rw [List.count_append, List.count_append, List.count_cons_self, List.count_cons_of_ne hne] at hcount
  obtain ⟨close', hclose', hlt⟩ := exists_closingFrom?_of_count hne w (closer :: after)
    1 ((before ++ opener :: u).size + opener.utf8Size) (by omega) (by omega)
  have hcode'' : code = (before ++ opener :: u) ++ opener :: (w ++ closer :: after) := by
    rw [hcode]
    simp
  refine ⟨close', ?_, ?_, ?_⟩
  · rw [hcode'', closing?_size, hclose']
  · obtain ⟨inner', after', -, rfl, -⟩ := closingFrom?_spec hne _ (by omega) hclose'
    omega
  · rw [hclose]
    simp only [Text.size_append, Text.size_cons] at hlt ⊢
    omega

theorem standsAt_of_closing? (hne : opener ≠ closer) {code : Text} {position close : Nat}
    (h : closing? opener closer code position = some close) :
    code.StandsAt opener position ∧ code.StandsAt closer close ∧ position < close := by
  obtain ⟨before, inner, after, rfl, rfl, rfl, -⟩ := closing?_spec hne h
  have hopener := opener.utf8Size_pos
  refine ⟨⟨before, _, rfl, rfl⟩, ⟨before ++ opener :: inner, after, by simp, rfl⟩, ?_⟩
  rw [Text.size_append, Text.size_cons]
  omega

end Closing

/-! ### Braces behind a header -/

theorem bodyOpenFrom?_spec {opened : Nat} (text : Text) :
    ∀ {depth offset : Nat}, bodyOpenFrom? depth offset text = some opened →
      ∃ inner after, text = inner ++ '\x7b' :: after ∧ opened = offset + Text.size inner := by
  induction text with
  | nil => intro depth offset h; cases h
  | cons c rest ih =>
    intro depth offset h
    have hrest : ∀ {depth}, bodyOpenFrom? depth (offset + c.utf8Size) rest = some opened →
        ∃ inner after, c :: rest = inner ++ '\x7b' :: after ∧ opened = offset + Text.size inner := by
      intro depth h
      obtain ⟨inner, after, rfl, rfl⟩ := ih h
      exact ⟨c :: inner, after, rfl, by rw [Text.size_cons]; omega⟩
    rw [bodyOpenFrom?] at h
    split_ifs at h with hopen hclose hbrace
    · exact hrest h
    · exact hrest h
    · cases h
      rw [Bool.and_eq_true, beq_iff_eq, beq_iff_eq] at hbrace
      exact ⟨[], rest, by rw [hbrace.2]; rfl, rfl⟩
    · exact hrest h

/-- What is found by seeking on from an offset stands behind it. -/
theorem standsAt_of_seek {code : Text} {start found : Nat} {c : Char}
    (h : ∀ before rest, code = before ++ rest → code.seek start = (before.size, rest) →
      ∃ inner after, rest = inner ++ c :: after ∧ found = before.size + Text.size inner) :
    code.StandsAt c found ∧ start ≤ found := by
  obtain ⟨before, rest, hcode, hseek, hend⟩ := Text.exists_seekFrom start code 0
  rw [Nat.zero_add] at hseek hend
  obtain ⟨inner, after, hrest, hfound⟩ := h before rest hcode hseek
  refine ⟨⟨before ++ inner, after, by rw [hcode, hrest, List.append_assoc],
    by rw [hfound, Text.size_append]⟩, ?_⟩
  rcases hend with hnil | hle
  · rw [hnil] at hrest
    simp at hrest
  · omega

theorem standsAt_of_bodyOpen? {code : Text} {start opened : Nat} (h : bodyOpen? code start = some opened) :
    code.StandsAt '\x7b' opened ∧ start ≤ opened := by
  apply standsAt_of_seek
  intro before rest _ hseek
  rw [bodyOpen?, hseek] at h
  exact bodyOpenFrom?_spec rest h

theorem Braces.standsAt_of_arrowBodyOpen? {code : Text} {start opened : Nat}
    (h : Braces.arrowBodyOpen? code start = some opened) :
    code.StandsAt '\x7b' opened ∧ start ≤ opened := by
  apply standsAt_of_seek
  intro before rest _ hseek
  rw [arrowBodyOpen?, hseek] at h
  dsimp only at h
  split_ifs at h with hbrace
  cases h
  rw [beq_iff_eq] at hbrace
  have hblanks : ∀ c ∈ rest.takeWhile Text.isAsciiBlank, Text.isAsciiBlank c = true :=
    List.all_eq_true.mp List.all_takeWhile
  have hsplit := List.takeWhile_append_dropWhile (p := Text.isAsciiBlank) (l := rest)
  generalize rest.takeWhile Text.isAsciiBlank = blanks at hbrace hblanks hsplit ⊢
  generalize rest.dropWhile Text.isAsciiBlank = solid at hsplit
  subst hsplit
  rw [List.drop_left] at hbrace
  refine ⟨blanks, solid.tail, ?_, by rw [Text.size_eq_length_of_asciiBlank hblanks]⟩
  exact congrArg (blanks ++ ·) (List.eq_cons_of_mem_head? hbrace)

/-! ### Colons behind a header -/

namespace Python

theorem exists_continuesLine? {code : Text} {offset : Nat} (h : code.IsBoundary offset) :
    ∃ continues, continuesLine? code offset = some continues := by
  obtain ⟨before, after, rfl, rfl⟩ := h
  rw [continuesLine?, Text.sliceTo?_size]
  exact ⟨_, rfl⟩

/-- The search for a colon comes to an answer, and what it finds is a colon. -/
theorem exists_colonFrom? {code : Text} (rest : Text) :
    ∀ (before : Text) (depth : Nat), code = before ++ rest →
      ∃ colon, colonFrom? code depth before.size rest = some colon ∧
        ∀ offset, colon = some offset → code.StandsAt ':' offset ∧ before.size ≤ offset := by
  induction rest with
  | nil => intro before depth _; exact ⟨none, rfl, fun offset h => by cases h⟩
  | cons c rest ih =>
    intro before depth hcode
    have hnext : ∀ {depth}, ∃ colon, colonFrom? code depth (before.size + c.utf8Size) rest = some colon ∧
        ∀ offset, colon = some offset → code.StandsAt ':' offset ∧ before.size ≤ offset := by
      intro depth
      have hsize : before.size + c.utf8Size = Text.size (before ++ [c]) := by simp
      obtain ⟨colon, hcolon, hstands⟩ := ih (before ++ [c]) depth (by rw [hcode]; simp)
      rw [← hsize] at hcolon hstands
      refine ⟨colon, hcolon, fun offset hoffset => ?_⟩
      obtain ⟨hat, hle⟩ := hstands offset hoffset
      exact ⟨hat, by omega⟩
    rw [colonFrom?]
    split_ifs with hopen hclose hfound hline
    · exact hnext
    · exact hnext
    · refine ⟨_, rfl, fun offset hoffset => ?_⟩
      cases hoffset
      rw [Bool.and_eq_true, beq_iff_eq] at hfound
      exact ⟨⟨before, rest, by rw [hcode, hfound.1], rfl⟩, Nat.le_refl _⟩
    · have hboundary : code.IsBoundary before.size := ⟨before, c :: rest, hcode, rfl⟩
      obtain ⟨continues, hcontinues⟩ := exists_continuesLine? hboundary
      rw [hcontinues, Option.bind_eq_bind, Option.bind_some]
      cases continues with
      | true => exact hnext
      | false => exact ⟨none, rfl, fun offset h => by cases h⟩
    · exact hnext

/-- The search for the colon of a header comes to an answer, and what it finds is a colon. -/
theorem exists_headerColon? (code : Text) (last : Nat) :
    ∃ colon, headerColon? code last = some colon ∧
      ∀ offset, colon = some offset → code.StandsAt ':' offset ∧ last ≤ offset := by
  have hnone : ∃ colon, some none = some colon ∧
      ∀ offset, colon = some offset → code.StandsAt ':' offset ∧ last ≤ offset :=
    ⟨none, rfl, fun offset h => by cases h⟩
  rw [headerColon?]
  split
  · rename_i hchar
    refine ⟨_, rfl, fun offset hoffset => ?_⟩
    cases hoffset
    exact ⟨Text.charAt?_eq_some_iff.mp hchar, Nat.le_refl _⟩
  · split
    · rename_i close hclose
      obtain ⟨-, -, hlt⟩ := standsAt_of_closing? (by decide) hclose
      obtain ⟨before, rest, hcode, hseek, hend⟩ := Text.exists_seekFrom (close + 1) code 0
      rw [Nat.zero_add] at hseek hend
      rw [Text.seek, hseek]
      obtain ⟨colon, hcolon, hstands⟩ := exists_colonFrom? rest before 0 hcode
      refine ⟨colon, hcolon, fun offset hoffset => ?_⟩
      obtain ⟨hat, hle⟩ := hstands offset hoffset
      refine ⟨hat, ?_⟩
      rcases hend with hnil | hend
      · -- nothing is left to search
        subst hnil
        cases hcolon.symm.trans (rfl : colonFrom? code 0 before.size [] = some none)
        cases hoffset
      · omega
    · exact hnone
  · exact hnone

end Python

end CodeAtlas
