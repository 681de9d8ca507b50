import CodeAtlas.CallGraph
import CodeAtlas.Proofs.ExtractedSymbols

/-!
# Extraction never fails

Offsets are found in the code and used in the text, and a text can be cut only between two characters. This
file puts together that no step comes to an offset at which it cannot cut, from the lines of a source to the
identifiers that a symbol mentions.

* `mentionsFrom_ascends`: the identifiers of a text start at boundaries, one after another;
* `exists_slice?_of_mem_zip`: so what lies between two of them can be cut out;
* `extraction_never_fails`: lines, rules, brackets and mentions.
-/

namespace CodeAtlas

/-- Some identifiers start at boundaries of the text from an offset on, none before the one in front of it. -/
structure Ascends (text : Text) (low : Nat) (found : List Mention) : Prop where
  boundary : ∀ m ∈ found, text.IsBoundary m.offset
  low_le : ∀ m ∈ found, low ≤ m.offset
  ordered : found.Pairwise fun m n => m.offset ≤ n.offset

theorem Ascends.cons {text : Text} {low : Nat} {m : Mention} {found : List Mention}
    (h : Ascends text low found) (hm : text.IsBoundary m.offset) (hle : m.offset ≤ low) :
    Ascends text m.offset (m :: found) := by
  have hlow : ∀ n ∈ found, m.offset ≤ n.offset := fun n hn => Nat.le_trans hle (h.low_le n hn)
  refine ⟨?_, ?_, List.pairwise_cons.mpr ⟨hlow, h.ordered⟩⟩
  · intro n hn
    rcases List.mem_cons.mp hn with rfl | hn
    · exact hm
    · exact h.boundary n hn
  · intro n hn
    rcases List.mem_cons.mp hn with rfl | hn
    · exact Nat.le_refl _
    · exact hlow n hn

theorem Ascends.mono {text : Text} {low low' : Nat} {found : List Mention} (h : Ascends text low found)
    (hle : low' ≤ low) : Ascends text low' found :=
  ⟨h.boundary, fun m hm => Nat.le_trans hle (h.low_le m hm), h.ordered⟩

/-- The identifiers of a text start at boundaries, one after another. The one that was begun before the rest of
the text starts where it was begun. -/
theorem mentionsFrom_ascends {text : Text} (rest : Text) :
    ∀ (left : Text) (line : Nat), text = left ++ rest →
      Ascends text left.size (mentionsFrom left.size line none rest) ∧
      ∀ m : Mention, text.IsBoundary m.offset → m.offset ≤ left.size →
        Ascends text m.offset (mentionsFrom left.size line (some m) rest) := by
  induction rest with
  | nil =>
    intro left line _
    have hnil : Ascends text left.size [] := ⟨by simp, by simp, List.Pairwise.nil⟩
    exact ⟨hnil, fun m hm hle => hnil.cons hm hle⟩
  | cons c rest ih =>
    intro left line htext
    have hsize : left.size + c.utf8Size = Text.size (left ++ [c]) := by simp
    have hboundary : text.IsBoundary left.size := ⟨left, c :: rest, htext, rfl⟩
    have htext' : text = left ++ [c] ++ rest := by rw [htext]; simp
    have hnone : ∀ line : Nat,
        Ascends text left.size (mentionsFrom (left.size + c.utf8Size) line none rest) := by
      intro line
      rw [hsize]
      exact (ih _ line htext').1.mono (by rw [Text.size_append]; omega)
    have hsome : ∀ (line : Nat) (m : Mention), text.IsBoundary m.offset → m.offset ≤ left.size →
        Ascends text m.offset (mentionsFrom (left.size + c.utf8Size) line (some m) rest) := by
      intro line m hm hle
      rw [hsize]
      exact (ih _ line htext').2 m hm (by rw [Text.size_append]; omega)
    constructor
    · rw [mentionsFrom]
      split
      · exact hsome _ ⟨left.size, line, [c]⟩ hboundary (Nat.le_refl _)
      · exact hnone _
    · intro m hm hle
      rw [mentionsFrom]
      split
      · exact hsome _ { m with word := m.word ++ [c] } hm hle
      · exact (hnone _).cons hm hle

/-- What lies between neighbouring boundaries of an ascending list can be cut out. -/
theorem exists_slice?_of_mem_zip {text : Text} {stops : List Nat} :
    ∀ {start : Nat}, text.IsBoundary start → (∀ o ∈ stops, text.IsBoundary o) →
      (start :: stops).Pairwise (· ≤ ·) → ∀ pair ∈ (start :: stops).zip stops,
        (text.slice? pair.1 pair.2).isSome = true := by
  induction stops with
  | nil => intro start _ _ _ pair hpair; cases hpair
  | cons stop stops ih =>
    intro start hstart hstops hordered pair hpair
    obtain ⟨hle, hordered⟩ := List.pairwise_cons.mp hordered
    have hstop := hstops stop List.mem_cons_self
    rw [List.zip_cons_cons] at hpair
    rcases List.mem_cons.mp hpair with rfl | hpair
    · obtain ⟨part, hpart⟩ := hstart.exists_slice? hstop (hle stop List.mem_cons_self)
      rw [hpart]
      rfl
    · exact ih hstop (fun o ho => hstops o (List.mem_cons_of_mem _ ho)) hordered pair hpair

/-- The stretches from one identifier to the next can be cut out of a text. -/
theorem mentions_slices (line : Nat) (text : Text) :
    ∀ pair ∈ (0 :: (mentions line text).map Mention.offset).zip ((mentions line text).map Mention.offset),
      (text.slice? pair.1 pair.2).isSome = true := by
  have hascends : Ascends text 0 (mentions line text) :=
    (mentionsFrom_ascends text [] line rfl).1
  apply exists_slice?_of_mem_zip ⟨[], text, rfl, rfl⟩
  · intro o ho
    obtain ⟨m, hm, rfl⟩ := List.mem_map.mp ho
    exact hascends.boundary m hm
  · refine List.pairwise_cons.mpr ⟨fun o _ => Nat.zero_le o, ?_⟩
    exact List.pairwise_map.mpr hascends.ordered

/-- **Extraction never fails.** A source has a line to count from. Every range of its lines can be cut out of its
text and out of its code. The rules of every family read an extraction off it, so each of their cuts lies
within its text and between two characters. A scan for the partner of a bracket comes to a closing bracket only
while brackets are open. And over a table, the code of a symbol's lines can be cut out, and so can what lies
between the identifiers in it. -/
theorem extraction_never_fails (source : Source) (sources : List Source) :
    0 < source.lineStarts.length ∧
    (∀ first last, (source.lines? first last).isSome = true ∧ (source.codeLines? first last).isSome = true) ∧
    (∀ family, (Extraction.ofFamily? family source).isSome = true) ∧
    (∀ brackets ∈ [('\x7b', '\x7d'), ('(', ')')], ∀ before inner after,
      source.code = before ++ brackets.1 :: (inner ++ brackets.2 :: after) →
      (∀ close, closing? brackets.1 brackets.2 source.code (Text.size before) = some close →
        Text.size (before ++ brackets.1 :: inner) ≤ close) →
      inner.count brackets.2 < (brackets.1 :: inner).count brackets.1) ∧
    ∀ s ∈ (SymbolTable.ofSources sources).symbols, ∃ stored code,
      (SymbolTable.ofSources sources).source? s.file = some stored ∧
      stored.codeLines? s.startLine s.endLine = some code ∧
      ∀ pair ∈ (0 :: (mentions s.startLine code).map Mention.offset).zip
          ((mentions s.startLine code).map Mention.offset),
        (code.slice? pair.1 pair.2).isSome = true := by
  refine ⟨source.lineStarts_length_pos, ?_, ?_, ?_, ?_⟩
  · intro first last
    obtain ⟨text, htext⟩ := source.exists_lines? first last
    obtain ⟨code, hcode⟩ := source.exists_codeLines? first last
    rw [htext, hcode]
    exact ⟨rfl, rfl⟩
  · intro family
    obtain ⟨e, he⟩ := Extraction.exists_ofFamily? family source
    rw [he]
    rfl
  · intro brackets hbrackets before inner after hcode hreached
    have hne : brackets.1 ≠ brackets.2 := by
      have hall : ∀ b ∈ [('\x7b', '\x7d'), ('(', ')')], b.1 ≠ b.2 := by decide
      exact hall brackets hbrackets
    exact count_lt_of_le_closing? hne hcode hreached
  · intro s hs
    obtain ⟨stored, hstored⟩ := SymbolTable.exists_source? hs
    obtain ⟨code, hcode⟩ := stored.exists_codeLines? s.startLine s.endLine
    exact ⟨stored, code, hstored, hcode, mentions_slices s.startLine code⟩

/-- A source with nested parentheses in a header, and a character of two bytes in a comment. -/
def accented : Source :=
  Source.ofText "a.py" .python "def f(()):#é\n g()\n".toList

/-- The symbol of that source. -/
def accentedSymbol : Symbol :=
  ⟨"f", .function, "a.py", 1, 2, "def f(())", "def f(()):#é\n g()"⟩

/-- The rules of another family can read the source too, the outer parenthesis is open where the scan comes to
the last closing one, and what lies between the identifiers of the symbol can be cut out. -/
theorem accented_never_fails :
    (Extraction.ofFamily? .cFamily accented).isSome = true ∧
    ['(', ')'].count ')' < ('(' :: ['(', ')']).count '(' ∧
    accentedSymbol ∈ (SymbolTable.ofSources [accented]).symbols ∧
    ∃ stored code, (SymbolTable.ofSources [accented]).source? "a.py" = some stored ∧
      stored.codeLines? 1 2 = some code ∧
      ∀ pair ∈ (0 :: (mentions 1 code).map Mention.offset).zip ((mentions 1 code).map Mention.offset),
        (code.slice? pair.1 pair.2).isSome = true := by
  obtain ⟨-, -, hfamilies, hbrackets, hmentions⟩ := extraction_never_fails accented [accented]
  have hmem : accentedSymbol ∈ (SymbolTable.ofSources [accented]).symbols := by decide +kernel
  refine ⟨hfamilies .cFamily, ?_, hmem, hmentions accentedSymbol hmem⟩
  have hclose : closing? '(' ')' accented.code 5 = some 8 := by decide +kernel
  refine hbrackets ('(', ')') (by decide) "def f".toList ['(', ')'] ":   \n g()\n".toList (by decide +kernel) ?_
  intro close hreached
  cases hclose.symm.trans hreached
  decide

end CodeAtlas
