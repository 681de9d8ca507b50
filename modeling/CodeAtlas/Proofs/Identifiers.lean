import CodeAtlas.CallGraph
import CodeAtlas.Proofs.TextCuts

/-!
# The identifiers of a text

A text is read from left to right. An identifier starts at the first character that can start one and goes on as far
as it can; then the search goes on behind it. This file says so in steps of whole identifiers, and compares two ways
of reading with it: the mentions of a symbol's code, and the matches of a pattern.

* `Scans`: the identifiers that are met on the way through a text;
* `Scans.mentions_eq`: the mentions of a text are these identifiers, with their lines;
* `identifier`, `Scans.findAllFrom_eq`: so are the matches of the pattern;
* `tokens`, `Scans.tokens_eq`: and the tokens that the pattern cuts out of the text;
* `Scans.sound`: where an identifier that is met stands.
-/

namespace CodeAtlas

/-! ### Characters of identifiers -/

theorem Text.isWord_of_isAsciiStart {c : Char} (h : isAsciiStart c = true) : isWord c = true := by
  have hascii : c.toNat < 128 := by
    simp only [isAsciiStart, Bool.or_eq_true, Bool.and_eq_true, decide_eq_true_eq, beq_iff_eq] at h
    rcases h with (⟨-, h⟩ | ⟨-, h⟩) | rfl
    · exact Nat.lt_of_le_of_lt h (by decide)
    · exact Nat.lt_of_le_of_lt h (by decide)
    · decide
  rw [isWord, if_pos hascii, h, Bool.true_or]

theorem isIdentifierPart_of_isIdentifierStart {c : Char} (h : isIdentifierStart c = true) :
    isIdentifierPart c = true := by
  rw [isIdentifierStart, Bool.or_eq_true] at h
  rw [isIdentifierPart, Bool.or_eq_true]
  exact h.imp_left Text.isWord_of_isAsciiStart

theorem isIdentifierStart_of_part {c : Char} (h : isIdentifierPart c = false) : isIdentifierStart c = false := by
  cases hc : isIdentifierStart c with
  | false => rfl
  | true => rw [isIdentifierPart_of_isIdentifierStart hc] at h; cases h

theorem ne_newline_of_isIdentifierPart {c : Char} (h : isIdentifierPart c = true) : c ≠ '\n' := by
  intro hc
  rw [hc] at h
  exact absurd h (by decide)

theorem count_newline_of_parts {word : Text} (h : ∀ c ∈ word, isIdentifierPart c = true) : word.count '\n' = 0 :=
  List.count_eq_zero_of_not_mem fun hmem => ne_newline_of_isIdentifierPart (h _ hmem) rfl

/-- No identifier goes on into the text. -/
def Text.StartsApart (text : Text) : Prop :=
  ∀ c, text.head? = some c → isIdentifierPart c = false

/-- The text is a whole identifier. -/
def Text.IsIdentifier (word : Text) : Prop :=
  ∃ c tail, word = c :: tail ∧ isIdentifierStart c = true ∧ ∀ d ∈ tail, isIdentifierPart d = true

/-! ### The way through a text -/

/-- The identifiers that are met on the way through a text which stands behind `left`, each with all that is before
it. -/
inductive Scans : Text → Text → List (Text × Text) → Prop
  | done (left : Text) : Scans left [] []
  | skip {left rest : Text} {c : Char} {found : List (Text × Text)} (hc : isIdentifierStart c = false)
      (h : Scans (left ++ [c]) rest found) : Scans left (c :: rest) found
  | word {left tail rest : Text} {c : Char} {found : List (Text × Text)} (hc : isIdentifierStart c = true)
      (htail : ∀ d ∈ tail, isIdentifierPart d = true) (hrest : rest.StartsApart)
      (h : Scans (left ++ c :: tail) rest found) :
      Scans left (c :: (tail ++ rest)) ((left, c :: tail) :: found)

/-- Every text can be gone through. -/
theorem exists_scans (length : Nat) :
    ∀ left rest : Text, rest.length ≤ length → ∃ found, Scans left rest found := by
  induction length with
  | zero =>
    intro left rest hlength
    rw [List.length_eq_zero_iff.mp (Nat.le_zero.mp hlength)]
    exact ⟨[], .done left⟩
  | succ length ih =>
    intro left rest hlength
    cases rest with
    | nil => exact ⟨[], .done left⟩
    | cons c rest =>
      rw [List.length_cons] at hlength
      cases hc : isIdentifierStart c with
      | false =>
        obtain ⟨found, hfound⟩ := ih (left ++ [c]) rest (by omega)
        exact ⟨found, .skip hc hfound⟩
      | true =>
        -- the identifier goes on over all characters that can be part of it
        obtain ⟨found, hfound⟩ := ih (left ++ c :: rest.takeWhile isIdentifierPart)
          (rest.dropWhile isIdentifierPart) (Nat.le_trans (List.dropWhile_sublist _).length_le (by omega))
        have hrest : Text.StartsApart (rest.dropWhile isIdentifierPart) := by
          intro d hd
          have hnot := List.head?_dropWhile_not isIdentifierPart rest
          rw [hd] at hnot
          exact hnot
        refine ⟨_, (List.takeWhile_append_dropWhile (p := isIdentifierPart) (l := rest)) ▸
          Scans.word hc (List.all_eq_true.mp List.all_takeWhile) hrest hfound⟩

theorem scans_of_text (text : Text) : ∃ found, Scans [] text found :=
  exists_scans text.length [] text (Nat.le_refl _)

/-! ### Mentions -/

/-- An identifier that was begun goes on to its last part. -/
theorem mentionsFrom_some {tail rest : Text} (htail : ∀ d ∈ tail, isIdentifierPart d = true)
    (hrest : rest.StartsApart) (line : Nat) :
    ∀ offset (m : Mention), mentionsFrom offset line (some m) (tail ++ rest)
      = { m with word := m.word ++ tail } :: mentionsFrom (offset + tail.size) line none rest := by
  induction tail with
  | nil =>
    intro offset m
    rw [List.nil_append, List.append_nil, Text.size_nil, Nat.add_zero]
    cases rest with
    | nil => rfl
    | cons c rest =>
      have hpart := hrest c rfl
      simp only [mentionsFrom, hpart, isIdentifierStart_of_part hpart, Bool.false_eq_true, if_false]
  | cons d tail ih =>
    intro offset m
    have hd := htail d List.mem_cons_self
    have hline : (d == '\n') = false := beq_false_of_ne (ne_newline_of_isIdentifierPart hd)
    simp only [List.cons_append, mentionsFrom, hd, hline, if_true, Bool.false_eq_true, if_false,
      ih (fun e he => htail e (List.mem_cons_of_mem d he)), Text.size_cons, List.append_assoc, List.nil_append,
      Nat.add_assoc]

/-- **The mentions of a text** are the identifiers that are met, each on the line that is reached before it. -/
theorem Scans.mentionsFrom_eq {left rest : Text} {found : List (Text × Text)} (h : Scans left rest found)
    (line : Nat) :
    mentionsFrom left.size (line + left.count '\n') none rest
      = found.map fun t => ⟨Text.size t.1, line + t.1.count '\n', t.2⟩ := by
  induction h with
  | done left => rfl
  | @skip left rest c found hc h ih =>
    rw [Text.size_append, Text.size_cons, Text.size_nil, Nat.add_zero, List.count_append,
      List.count_singleton] at ih
    simp only [mentionsFrom, hc, Bool.false_eq_true, if_false]
    rw [← ih]
    split_ifs <;> rfl
  | @word left tail rest c found hc htail hrest h ih =>
    have hpart := isIdentifierPart_of_isIdentifierStart hc
    have hline : (c == '\n') = false := beq_false_of_ne (ne_newline_of_isIdentifierPart hpart)
    have hcount : (left ++ c :: tail).count '\n' = left.count '\n' := by
      rw [List.count_append, List.count_cons, count_newline_of_parts htail, hline, if_neg Bool.false_ne_true]
      rfl
    rw [Text.size_append, Text.size_cons, hcount, ← Nat.add_assoc] at ih
    simp only [mentionsFrom, hc, hline, if_true, Bool.false_eq_true, if_false, mentionsFrom_some htail hrest,
      List.map_cons, List.cons_append, List.nil_append, ih]

theorem Scans.mentions_eq {text : Text} {found : List (Text × Text)} (h : Scans [] text found) (line : Nat) :
    mentions line text = found.map fun t => ⟨Text.size t.1, line + t.1.count '\n', t.2⟩ := by
  have hmentions := h.mentionsFrom_eq line
  rw [Text.size_nil, List.count_nil, Nat.add_zero] at hmentions
  exact hmentions

/-! ### Matches of the pattern -/

/-- An identifier: a letter, an underscore or a dollar sign, then as many word characters and dollar signs as
possible. -/
def identifier : Pattern :=
  (Pattern.one (.or .asciiStart "$") ++ Pattern.star (Pattern.one (.or .word "$"))).numbered

/-- What follows the first character of an identifier. -/
def identifierTail : Pattern :=
  .many true (.char 1 (.or .word "$"))

/-- A class with more characters contains these too. -/
theorem CharClass.contains_or {cls : CharClass} (h : cls.negated = false) (chars : String) (c : Char) :
    (cls.or chars).contains c = (cls.contains c || chars.toList.contains c) := by
  simp only [contains, CharClass.or, h, Bool.bne_false, List.any_append, List.any_map]
  rw [List.contains_eq_any_beq]
  rfl

theorem contains_asciiStart (c : Char) : CharClass.asciiStart.contains c = Text.isAsciiStart c := by
  show (('A' ≤ c && c ≤ 'Z' || ('a' ≤ c && c ≤ 'z' || (c == '_' || false))) != false)
    = ('a' ≤ c && c ≤ 'z' || 'A' ≤ c && c ≤ 'Z' || c == '_')
  rw [Bool.or_false, Bool.bne_false, ← Bool.or_assoc, Bool.or_comm (decide ('A' ≤ c) && decide (c ≤ 'Z'))]

theorem contains_word (c : Char) : CharClass.word.contains c = Text.isWord c := by
  show ((Text.isWord c || false) != false) = Text.isWord c
  rw [Bool.or_false, Bool.bne_false]

theorem contains_start (c : Char) : (CharClass.or .asciiStart "$").contains c = isIdentifierStart c := by
  rw [CharClass.contains_or rfl, contains_asciiStart]
  simp [isIdentifierStart, beq_eq_decide]

theorem contains_part (c : Char) : (CharClass.or .word "$").contains c = isIdentifierPart c := by
  rw [CharClass.contains_or rfl, contains_word]
  simp [isIdentifierPart, beq_eq_decide]

namespace Pattern

/-- Behind the first character a match can go on, and it can end. -/
theorem threadsOf_identifierTail (spot : Spot) :
    Thread.settle [] (threadsOf spot [identifierTail] [])
      = [.wait 1 (.or .word "$") [identifierTail] [], .done []] :=
  rfl

/-- A match that has begun goes on over all parts of the identifier. -/
theorem run_identifierTail {tail rest : Text} (htail : ∀ d ∈ tail, isIdentifierPart d = true)
    (hrest : rest.StartsApart) :
    ∀ offset best, Thread.run offset [.wait 1 (.or .word "$") [identifierTail] [], .done []] best (tail ++ rest)
      = some (offset + tail.size, []) := by
  induction tail with
  | nil =>
    intro offset best
    cases rest with
    | nil => rfl
    | cons c rest =>
      have hc : (CharClass.or .word "$").contains c = false := (contains_part c).trans (hrest c rfl)
      rw [List.nil_append, Thread.run]
      simp only [List.flatMap_cons, List.flatMap_nil, Thread.feed, hc, Bool.false_eq_true, if_false, List.append_nil,
        Thread.settle]
      rfl
  | cons d tail ih =>
    intro offset best
    have hd : (CharClass.or .word "$").contains d = true := (contains_part d).trans (htail d List.mem_cons_self)
    rw [List.cons_append, Thread.run]
    simp only [List.flatMap_cons, List.flatMap_nil, Thread.feed, hd, if_true, List.append_nil,
      threadsOf_identifierTail]
    rw [ih (fun e he => htail e (List.mem_cons_of_mem d he)), Text.size_cons, Nat.add_assoc]

theorem matchAt?_identifier_skip {c : Char} (hc : isIdentifierStart c = false) (before : Option Char) (offset : Nat)
    (rest : Text) : identifier.matchAt? before offset (c :: rest) = none := by
  rw [matchAt?, Option.map_eq_none_iff]
  show Thread.run offset [.wait 0 (.or .asciiStart "$") [identifierTail] []] none (c :: rest) = none
  rw [Thread.run]
  simp only [List.flatMap_cons, List.flatMap_nil, Thread.feed, contains_start, hc, Bool.false_eq_true, if_false,
    List.append_nil, Thread.settle]
  rfl

theorem matchAt?_identifier_word {c : Char} {tail rest : Text} (hc : isIdentifierStart c = true)
    (htail : ∀ d ∈ tail, isIdentifierPart d = true) (hrest : rest.StartsApart) (before : Option Char)
    (offset : Nat) :
    identifier.matchAt? before offset (c :: (tail ++ rest)) = some ⟨⟨offset, offset + Text.size (c :: tail)⟩, []⟩ := by
  have hrun : Thread.run offset [.wait 0 (.or .asciiStart "$") [identifierTail] []] none (c :: (tail ++ rest))
      = some (offset + Text.size (c :: tail), []) := by
    rw [Thread.run]
    simp only [List.flatMap_cons, List.flatMap_nil, Thread.feed, contains_start, hc, if_true, List.append_nil,
      threadsOf_identifierTail]
    rw [run_identifierTail htail hrest, Text.size_cons, Nat.add_assoc]
  rw [matchAt?, Option.map_eq_some_iff]
  exact ⟨_, hrun, rfl⟩

/-- The characters of a match are passed over before the next one is looked for. -/
theorem findAllFrom_skip (p : Pattern) (skip : Nat) (rest tail : Text) :
    ∀ left : Text, Text.size (left ++ tail) ≤ skip →
      p.findAllFrom skip left.getLast? left.size (tail ++ rest)
        = p.findAllFrom skip (left ++ tail).getLast? (Text.size (left ++ tail)) rest := by
  induction tail with
  | nil => intro left _; rw [List.append_nil, List.nil_append]
  | cons c tail ih =>
    intro left hskip
    have hnext : left ++ c :: tail = (left ++ [c]) ++ tail := by simp
    have hlt : left.size < skip := by
      have hc := c.utf8Size_pos
      rw [Text.size_append, Text.size_cons] at hskip
      omega
    have hstep := ih (left ++ [c]) (hnext ▸ hskip)
    rw [← hnext, List.getLast?_concat, Text.size_append, Text.size_cons, Text.size_nil, Nat.add_zero] at hstep
    rw [List.cons_append, findAllFrom]
    simp only [hlt, if_true]
    exact hstep

/-- A character at which no match starts is passed over. -/
theorem findAllFrom_step {p : Pattern} {left : Text} {c : Char} {rest : Text} (skip : Nat)
    (hnone : p.matchAt? left.getLast? left.size (c :: rest) = none) :
    p.findAllFrom skip left.getLast? left.size (c :: rest)
      = p.findAllFrom skip (left ++ [c]).getLast? (Text.size (left ++ [c])) rest := by
  rw [List.getLast?_concat, Text.size_append, Text.size_cons, Text.size_nil, Nat.add_zero, findAllFrom]
  split_ifs
  · rfl
  · simp only [hnone]

/-- A stretch in which no match starts is passed over. -/
theorem findAllFrom_pass (p : Pattern) (skip : Nat) (w rest : Text) :
    ∀ left : Text, (∀ u v, w = u ++ v → v ≠ [] →
        p.matchAt? (left ++ u).getLast? (Text.size (left ++ u)) (v ++ rest) = none) →
      p.findAllFrom skip left.getLast? left.size (w ++ rest)
        = p.findAllFrom skip (left ++ w).getLast? (Text.size (left ++ w)) rest := by
  induction w with
  | nil => intro left _; rw [List.append_nil, List.nil_append]
  | cons c w ih =>
    intro left hnone
    have hhere := hnone [] (c :: w) rfl (List.cons_ne_nil c w)
    rw [List.append_nil] at hhere
    have hthere := ih (left ++ [c]) fun u v hw hv => by
      rw [List.append_assoc]
      exact hnone (c :: u) v (by rw [hw]; rfl) hv
    rw [List.append_assoc left [c] w] at hthere
    exact (findAllFrom_step skip hhere).trans hthere

/-- Behind a match that has read something, the search goes on. -/
theorem findAllFrom_match {p : Pattern} {skip : Nat} {left w rest : Text} {m : Match} (hskip : skip ≤ left.size)
    (hw : w ≠ []) (hm : p.matchAt? left.getLast? left.size (w ++ rest) = some m)
    (hstop : m.span.stop = Text.size (left ++ w)) :
    p.findAllFrom skip left.getLast? left.size (w ++ rest)
      = m :: p.findAllFrom (Text.size (left ++ w)) (left ++ w).getLast? (Text.size (left ++ w)) rest := by
  cases w with
  | nil => exact absurd rfl hw
  | cons c tail =>
    have hlist : left ++ c :: tail = (left ++ [c]) ++ tail := by simp
    have hpass := findAllFrom_skip p (Text.size (left ++ c :: tail)) rest tail (left ++ [c])
      (Nat.le_of_eq (by rw [hlist]))
    rw [← hlist, List.getLast?_concat, Text.size_append left [c], Text.size_cons, Text.size_nil, Nat.add_zero] at hpass
    rw [List.cons_append] at hm ⊢
    rw [findAllFrom, if_neg (by omega)]
    simp only [hm, hstop]
    rw [hpass]

end Pattern

/-- **The matches of the pattern** are the identifiers that are met. -/
theorem Scans.findAllFrom_eq {left rest : Text} {found : List (Text × Text)} (h : Scans left rest found) :
    ∀ skip, skip ≤ left.size →
      identifier.findAllFrom skip left.getLast? left.size rest
        = found.map fun t => ⟨⟨Text.size t.1, Text.size (t.1 ++ t.2)⟩, []⟩ := by
  induction h with
  | done left =>
    intro skip hskip
    rw [Pattern.findAllFrom, if_neg (by omega)]
    rfl
  | @skip left rest c found hc h ih =>
    intro skip hskip
    rw [Pattern.findAllFrom_step skip (Pattern.matchAt?_identifier_skip hc _ _ _)]
    exact ih skip (by rw [Text.size_append]; omega)
  | @word left tail rest c found hc htail hrest h ih =>
    intro skip hskip
    have hmatch := Pattern.matchAt?_identifier_word hc htail hrest left.getLast? left.size
    rw [← Text.size_append] at hmatch
    rw [← List.cons_append] at hmatch ⊢
    rw [Pattern.findAllFrom_match hskip (List.cons_ne_nil c tail) hmatch rfl, ih _ (Nat.le_refl _), List.map_cons]

/-! ### Tokens -/

/-- A name in a text, by the offset of its first character. -/
structure Token where
  offset : Nat
  name : String
deriving DecidableEq, Repr

/-- The tokens of a text: what the pattern of an identifier matches, from left to right. -/
def tokens (text : Text) : List Token :=
  (identifier.findAll text).map fun m =>
    ⟨m.span.start, String.ofList (text.slice m.span.start m.span.stop)⟩

/-- Where an identifier that is met stands: it is a whole one, and no part of it follows. -/
theorem Scans.sound {left rest : Text} {found : List (Text × Text)} (h : Scans left rest found) :
    ∀ t ∈ found, ∃ after : Text, left ++ rest = t.1 ++ t.2 ++ after ∧ Text.IsIdentifier t.2 ∧ after.StartsApart := by
  induction h with
  | done left => intro t ht; cases ht
  | @skip left rest c found hc h ih =>
    intro t ht
    obtain ⟨after, hsplit, hword⟩ := ih t ht
    exact ⟨after, by rw [← hsplit, List.append_assoc]; rfl, hword⟩
  | @word left tail rest c found hc htail hrest h ih =>
    intro t ht
    rcases List.mem_cons.mp ht with rfl | ht
    · exact ⟨rest, by simp, ⟨c, tail, rfl, hc, htail⟩, hrest⟩
    · obtain ⟨after, hsplit, hword⟩ := ih t ht
      exact ⟨after, by rw [← hsplit]; simp, hword⟩

/-- The tokens of a text are the identifiers that are met. -/
theorem Scans.tokens_eq {text : Text} {found : List (Text × Text)} (h : Scans [] text found) :
    tokens text = found.map fun t => ⟨Text.size t.1, String.ofList t.2⟩ := by
  have hmatches : identifier.findAll text
      = found.map fun t => ⟨⟨Text.size t.1, Text.size (t.1 ++ t.2)⟩, []⟩ := h.findAllFrom_eq 0 (Nat.le_refl 0)
  rw [tokens, hmatches, List.map_map]
  apply List.map_congr_left
  intro t ht
  obtain ⟨after, hsplit, -⟩ := h.sound t ht
  rw [List.nil_append] at hsplit
  show (⟨Text.size t.1, String.ofList (text.slice (Text.size t.1) (Text.size (t.1 ++ t.2)))⟩ : Token) = _
  rw [Text.slice, hsplit, Text.slice?_size, Option.getD_some]

example : tokens "f(10L, $x)".toList = [⟨0, "f"⟩, ⟨4, "L"⟩, ⟨7, "$x"⟩] := by decide +kernel

end CodeAtlas
