import CodeAtlas.Proofs.BodyBraces
import Mathlib.Order.Bounds.Basic

/-!
# Brackets and their partners

The partner of a bracket is found by a scan that counts the brackets of one kind up and down, and ends where its
count comes back to zero. This file says which byte that is without the scan: the first one behind the bracket up to
which as many brackets are closed as opened.

* `Text.evenEnds`: the bytes up to which the brackets of a kind are even, counted in bytes;
* `Text.exists_scanned`: counted in bytes or in characters, it comes to the same;
* `isLeast_evenEnds`, `exists_closing?_of_mem_evenEnds`: the partner is the least of these bytes;
* `countedClosing?`: the scan with a count that must not fall below zero; it never does (`countedClosing?_eq`);
* `brackets_pair_exactly`: the partners of braces and of parentheses.
-/

namespace CodeAtlas

/-! ### Brackets among the bytes of a code -/

namespace Text

/-- The bytes from one offset to another, both included, hold as many opening as closing brackets. -/
def EvenBetween (opener closer : Char) (code : Text) (first last : Nat) : Prop :=
  (code.bytes.extract first (last + 1)).count opener.toUInt8
    = (code.bytes.extract first (last + 1)).count closer.toUInt8

/-- The offsets behind an offset up to which there are as many opening as closing brackets. -/
def evenEnds (opener closer : Char) (code : Text) (start : Nat) : Set Nat :=
  {last | start < last ∧ last < code.bytes.length ∧ EvenBetween opener closer code start last}

end Text

section Partners

variable {opener closer : Char} (hopener : opener.val.toNat < 128) (hcloser : closer.val.toNat < 128)

theorem Text.standsAt_iff_getElem?_bytes (h : opener.val.toNat < 128) {code : Text} {offset : Nat} :
    code.StandsAt opener offset ↔ code.bytes[offset]? = some opener.toUInt8 := by
  rw [Text.getElem?_bytes_eq_iff h]
  simp only [Text.StandsAt, Text.size_eq_length_bytes]

include hopener in
/-- The bytes behind a bracket, with the bracket itself. -/
theorem Text.extract_bytes_opener (before rest : Text) {last : Nat} (h : before.size < last) :
    (Text.bytes (before ++ opener :: rest)).extract before.size (last + 1)
      = opener.toUInt8 :: rest.bytes.take (last - before.size) := by
  rw [List.extract_eq_take_drop, Text.bytes_append, Text.size_eq_length_bytes, List.drop_left, Text.bytes_cons,
    Text.utf8EncodeChar_of_ascii hopener, List.singleton_append,
    show last + 1 - before.bytes.length = last - before.bytes.length + 1 from by
      rw [Text.size_eq_length_bytes] at h
      omega, List.take_succ_cons]

include hopener hcloser in
/-- Behind a bracket, the brackets are even up to a byte if the whole characters up to it close one more than they
open. -/
theorem Text.exists_scanned (hne : opener ≠ closer) (before rest : Text) {last : Nat} (h : before.size < last) :
    ∃ u v, rest = u ++ v ∧ u.size ≤ last - before.size ∧
      (∀ w x, rest = w ++ x → w.size ≤ last - before.size → w.size ≤ u.size) ∧
      (EvenBetween opener closer (before ++ opener :: rest) before.size last
        ↔ u.count opener + 1 = u.count closer) := by
  obtain ⟨u, v, hrest, hle, hlast, hcount⟩ := Text.exists_wholeCharacters rest (last - before.size)
  simp only [← Text.size_eq_length_bytes] at hle hlast
  have hother : opener.toUInt8 ≠ closer.toUInt8 := by
    intro hsame
    have hmem : closer.toUInt8 ∈ String.utf8EncodeChar opener := by
      rw [Text.utf8EncodeChar_of_ascii hopener, hsame]
      exact List.mem_singleton_self _
    exact hne (Text.eq_of_toUInt8_mem_utf8EncodeChar hcloser hmem)
  refine ⟨u, v, hrest, hle, hlast, ?_⟩
  rw [Text.EvenBetween, Text.extract_bytes_opener hopener before rest h, List.count_cons_self,
    List.count_cons_of_ne hother, hcount opener hopener, hcount closer hcloser]

/-! ### The partner is the first byte at which they are even -/

variable {code : Text}

include hopener hcloser in
theorem isLeast_evenEnds (hne : opener ≠ closer) {start close : Nat}
    (h : closing? opener closer code start = some close) : IsLeast (code.evenEnds opener closer start) close := by
  obtain ⟨before, inner, after, rfl, rfl, rfl, hinner⟩ := (closing?_eq_some_iff hne).mp h
  have hopenerSize : opener.utf8Size = 1 := by
    rw [← String.length_utf8EncodeChar, Text.utf8EncodeChar_of_ascii hopener, List.length_singleton]
  have hcloserSize : closer.utf8Size = 1 := by
    rw [← String.length_utf8EncodeChar, Text.utf8EncodeChar_of_ascii hcloser, List.length_singleton]
  have hclose : (before ++ opener :: inner).size = before.size + Text.size inner + 1 := by
    rw [Text.size_append, Text.size_cons, hopenerSize]
    omega
  have hother : [closer].count opener = 0 := List.count_eq_zero.mpr (by simpa using hne)
  constructor
  · have hbehind : before.size < (before ++ opener :: inner).size := by omega
    refine ⟨hbehind, ?_, ?_⟩
    · rw [← Text.size_eq_length_bytes, hclose]
      simp only [Text.size_append, Text.size_cons, hopenerSize, hcloserSize]
      omega
    · -- the whole characters up to the partner are those before it and itself
      obtain ⟨u, v, hrest, hle, hlast, heven⟩ :=
        Text.exists_scanned hopener hcloser hne before (inner ++ closer :: after) hbehind
      have hsize : Text.size (inner ++ [closer]) = Text.size inner + 1 := by
        rw [Text.size_append, Text.size_cons, hcloserSize, Text.size_nil]
      have hwhole := hlast (inner ++ [closer]) after (by rw [List.append_assoc]; rfl) (by omega)
      have hu : inner ++ [closer] = u := by
        refine (Text.append_inj_of_size (b := after) (d := v) ?_ (by omega)).1
        rw [List.append_assoc]
        exact hrest
      rw [heven, ← hu, List.count_append, List.count_append, List.count_singleton_self, hother, hinner.count_eq]
  · -- an earlier byte lies in the balanced text, no beginning of which closes more than it opens
    intro last hmem
    obtain ⟨hbehind, -, hlasteven⟩ := hmem
    by_contra hlt
    obtain ⟨u, v, hrest, hle, -, heven⟩ :=
      Text.exists_scanned hopener hcloser hne before (inner ++ closer :: after) hbehind
    obtain ⟨w, rfl, -⟩ := Text.exists_append_of_size_le hrest.symm (by omega)
    have hstart := hinner.starts u (List.prefix_append u w)
    have hcount := heven.mp hlasteven
    omega

include hopener hcloser in
/-- A bracket behind which the brackets come to be even has a partner. -/
theorem exists_closing?_of_mem_evenEnds (hne : opener ≠ closer) {start last : Nat}
    (hstands : code.StandsAt opener start) (h : last ∈ code.evenEnds opener closer start) :
    ∃ close, closing? opener closer code start = some close := by
  obtain ⟨before, rest, rfl, rfl⟩ := hstands
  obtain ⟨u, v, rfl, -, -, heven⟩ := Text.exists_scanned hopener hcloser hne before rest h.1
  have hcount := heven.mp h.2.2
  obtain ⟨close, hclose, -⟩ := exists_closingFrom?_of_count hne u v 1 (before.size + opener.utf8Size)
    (by omega) (by omega)
  exact ⟨close, by rw [closing?_size, hclose]⟩

end Partners

/-! ### The count of the scan -/

/-- The scan for the partner of a bracket, from a count on. Where it would count down from zero, it fails. -/
def countedClosingFrom? (opener closer : Char) (depth offset : Nat) : Text → Option (Option Nat)
  | [] => some none
  | c :: rest =>
    let next := offset + c.utf8Size
    if c == opener then countedClosingFrom? opener closer (depth + 1) next rest
    else if c == closer then do
      let depth ← Text.before? depth
      if depth == 0 then some (some offset) else countedClosingFrom? opener closer depth next rest
    else countedClosingFrom? opener closer depth next rest

/-- The scan for the partner of the bracket at an offset, if there is one. It counts from zero, the bracket itself
included. -/
def countedClosing? (opener closer : Char) (code : Text) (start : Nat) : Option (Option Nat) :=
  match code.seek start with
  | (_, []) => some none
  | (offset, c :: rest) =>
    if offset == start && c == opener then countedClosingFrom? opener closer 0 offset (c :: rest) else some none

/-- While a bracket is open, the scan does not fail. -/
theorem countedClosingFrom?_eq (opener closer : Char) (text : Text) :
    ∀ depth offset : Nat, 0 < depth →
      countedClosingFrom? opener closer depth offset text = some (closingFrom? opener closer depth offset text) := by
  induction text with
  | nil => intro depth offset _; rfl
  | cons c rest ih =>
    intro depth offset hdepth
    rw [countedClosingFrom?, closingFrom?]
    by_cases ho : (c == opener) = true
    · rw [if_pos ho, if_pos ho]
      exact ih _ _ (Nat.succ_pos depth)
    · rw [if_neg ho, if_neg ho]
      by_cases hc : (c == closer) = true
      · rw [if_pos hc, if_pos hc]
        obtain ⟨below, rfl⟩ : ∃ below, depth = below + 1 := ⟨depth - 1, by omega⟩
        rw [Text.before?, Option.bind_eq_bind, Option.bind_some, Nat.add_sub_cancel]
        by_cases hzero : below = 0
        · rw [if_pos (by simpa using hzero), if_pos (by omega)]
        · rw [if_neg (by simpa using hzero), if_neg (by omega)]
          exact ih _ _ (Nat.pos_of_ne_zero hzero)
      · rw [if_neg hc, if_neg hc]
        exact ih _ _ hdepth

/-- **The count never falls below zero**, since the scan starts with a bracket that is opened. -/
theorem countedClosing?_eq (opener closer : Char) (code : Text) (start : Nat) :
    countedClosing? opener closer code start = some (closing? opener closer code start) := by
  rw [countedClosing?, closing?]
  obtain ⟨offset, text⟩ := code.seek start
  cases text with
  | nil => rfl
  | cons c rest =>
    dsimp only
    split_ifs with hstart
    · rw [Bool.and_eq_true] at hstart
      rw [countedClosingFrom?, if_pos hstart.2]
      exact countedClosingFrom?_eq opener closer rest _ _ Nat.one_pos
    · rfl

/-! ### Braces and parentheses -/

/-- What a search for partners finds in a code, for one kind of brackets. -/
structure PairsBrackets (opener closer : Char) (code : Text) (partner? : Nat → Option Nat) : Prop where
  /-- The partner of an opening bracket is the first byte behind it up to which the brackets are even. -/
  partner_iff : ∀ start close, partner? start = some close ↔
    code.bytes[start]? = some opener.toUInt8 ∧ IsLeast (code.evenEnds opener closer start) close
  /-- It is a closing bracket. -/
  closer_at : ∀ start close, partner? start = some close → code.bytes[close]? = some closer.toUInt8
  /-- It is found with a count that never falls below zero. -/
  counted : ∀ start, countedClosing? opener closer code start = some (partner? start)
  /-- A bracket that is opened between two partners has its own partner before the second. -/
  nested : ∀ outer close inner, partner? outer = some close → outer < inner → inner < close →
    code.bytes[inner]? = some opener.toUInt8 → ∃ close', partner? inner = some close' ∧ close' < close

theorem pairsBrackets_closing? {opener closer : Char} (hopener : opener.val.toNat < 128)
    (hcloser : closer.val.toNat < 128) (hne : opener ≠ closer) (code : Text) :
    PairsBrackets opener closer code (closing? opener closer code) where
  partner_iff start close := by
    rw [← Text.standsAt_iff_getElem?_bytes hopener]
    constructor
    · intro h
      exact ⟨(standsAt_of_closing? hne h).1, isLeast_evenEnds hopener hcloser hne h⟩
    · intro h
      obtain ⟨close', hclose'⟩ := exists_closing?_of_mem_evenEnds hopener hcloser hne h.1 h.2.1
      rw [hclose', (isLeast_evenEnds hopener hcloser hne hclose').unique h.2]
  closer_at start close h :=
    (Text.standsAt_iff_getElem?_bytes hcloser).mp (standsAt_of_closing? hne h).2.1
  counted := countedClosing?_eq opener closer code
  nested outer close inner houter hafter hbefore hinner := by
    obtain ⟨close', hclose', -, hlt⟩ :=
      closing?_nested hne houter ((Text.standsAt_iff_getElem?_bytes hopener).mpr hinner) hafter hbefore
    exact ⟨close', hclose', hlt⟩

/-- **Brackets pair exactly.** In every code, a brace at an offset has a partner just if it is an opening one and the
bytes from it on come to hold as many closing as opening braces; the partner is the first byte up to which they do,
and it is a closing brace. The count that the scan keeps never falls below zero. Braces that are opened between two
partners have their partners there. The same holds of parentheses. -/
theorem brackets_pair_exactly (code : Text) :
    PairsBrackets '\x7b' '\x7d' code (closingBrace? code) ∧ PairsBrackets '(' ')' code (closingParen? code) :=
  ⟨pairsBrackets_closing? (by decide) (by decide) (by decide) code,
    pairsBrackets_closing? (by decide) (by decide) (by decide) code⟩

/-- Braces and parentheses that cross, behind a character of two bytes. -/
def crossedBrackets : Text :=
  "é\x7b(\x7b)\x7d\x7d".toList

/-- Each kind is paired without regard to the other. -/
theorem crossedBrackets_pair :
    closingBrace? crossedBrackets 2 = some 7 ∧ closingParen? crossedBrackets 3 = some 5 ∧
    IsLeast (crossedBrackets.evenEnds '\x7b' '\x7d' 2) 7 ∧
    ∃ close, closingBrace? crossedBrackets 4 = some close ∧ close < 7 := by
  obtain ⟨hbraces, -⟩ := brackets_pair_exactly crossedBrackets
  have houter : closingBrace? crossedBrackets 2 = some 7 := by decide
  exact ⟨houter, by decide, ((hbraces.partner_iff 2 7).mp houter).2,
    hbraces.nested 2 7 4 houter (by decide) (by decide) (by decide)⟩

end CodeAtlas
