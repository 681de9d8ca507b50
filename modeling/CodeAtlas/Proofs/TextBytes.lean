import CodeAtlas.Text.Basic
import Mathlib.Data.List.Basic

/-!
# The bytes of a text

Offsets count the bytes of the UTF-8 form of a text. This file says what these bytes are and what can be read
off them: the text itself, the boundaries between its characters, and the places of its ASCII characters, each of
which is one byte that no other character has in its form.

* `Text.bytes`: the UTF-8 form of a text; `Text.size_eq_length_bytes`: its length;
* `Text.bytes_injective`: a text is told by its bytes;
* `Text.isValid_iff`: the offsets between two characters;
* `Text.getElem?_bytes_eq_iff`, `Text.count_bytes`: the bytes of a text that are an ASCII character;
* `Text.exists_wholeCharacters`: the characters that end at an offset or before it.
-/

namespace CodeAtlas.Text

/-! ### Sizes -/

@[simp] theorem size_nil : size [] = 0 := rfl

@[simp] theorem size_cons (c : Char) (text : Text) : size (c :: text) = c.utf8Size + size text := rfl

@[simp] theorem size_append (left right : Text) : size (left ++ right) = size left + size right := by
  induction left with
  | nil => simp
  | cons c left ih => simp [ih, Nat.add_assoc]

theorem size_pos_of_ne_nil {text : Text} (h : text ≠ []) : 0 < size text := by
  cases text with
  | nil => exact absurd rfl h
  | cons c rest =>
    have hc := c.utf8Size_pos
    rw [size_cons]
    omega

theorem eq_nil_of_size_eq_zero {text : Text} (h : size text = 0) : text = [] := by
  by_contra hne
  have := size_pos_of_ne_nil hne
  omega

/-! ### The UTF-8 form -/

/-- The UTF-8 form of a text. -/
def bytes (text : Text) : List UInt8 :=
  (String.ofList text).toUTF8.data.toList

theorem bytes_cons (c : Char) (rest : Text) :
    bytes (c :: rest) = String.utf8EncodeChar c ++ bytes rest := by
  rw [bytes, String.toUTF8_eq_toByteArray, String.toByteArray_ofList, List.utf8Encode_cons,
    List.utf8Encode_singleton, ByteArray.data_append, Array.toList_append, List.toList_data_toByteArray]
  simp [bytes]

theorem bytes_append (left right : Text) : bytes (left ++ right) = bytes left ++ bytes right := by
  induction left with
  | nil => rfl
  | cons c left ih => rw [List.cons_append, bytes_cons, ih, bytes_cons, List.append_assoc]

theorem length_bytes (text : Text) : (bytes text).length = (String.ofList text).utf8ByteSize := rfl

theorem size_eq_length_bytes (text : Text) : text.size = text.bytes.length := by
  induction text with
  | nil => rfl
  | cons c rest ih =>
    rw [size_cons, bytes_cons, List.length_append, String.length_utf8EncodeChar, ih]

/-- The bytes of a part of a text. -/
theorem extract_bytes_middle (left middle right : Text) :
    (bytes (left ++ middle ++ right)).extract left.bytes.length (left.bytes.length + middle.bytes.length)
      = middle.bytes := by
  rw [List.extract_eq_take_drop, bytes_append, bytes_append, List.append_assoc, List.drop_left,
    Nat.add_sub_cancel_left, List.take_left]

theorem toList_loop_eq (content : ByteArray) (i : Nat) (done : List UInt8) :
    ByteArray.toList.loop content i done = done.reverse ++ content.data.toList.drop i := by
  fun_induction ByteArray.toList.loop content i done with
  | case1 i done h ih =>
    have hi : i < content.data.toList.length := by simpa using h
    rw [ih, List.drop_eq_getElem_cons hi]
    simp [ByteArray.get!, h]
  | case2 i done h =>
    have hi : content.data.toList.length ≤ i := by simpa using h
    rw [List.drop_eq_nil_of_le hi]
    simp

theorem toList_toUTF8 (s : String) : s.toUTF8.toList = bytes s.toList := by
  rw [ByteArray.toList, toList_loop_eq, bytes, String.ofList_toList]
  rfl

theorem bytes_injective {a b : Text} (h : bytes a = bytes b) : a = b := by
  have hbytes : (String.ofList a).toByteArray = (String.ofList b).toByteArray := by
    apply ByteArray.ext
    exact Array.toList_inj.mp h
  exact String.ofList_injective (String.toByteArray_inj.mp hbytes)

/-! ### ASCII characters among the bytes -/

/-- Only an ASCII character itself has its byte in its UTF-8 form. -/
theorem eq_of_toUInt8_mem_utf8EncodeChar {c d : Char} (hd : d.val.toNat < 128)
    (h : d.toUInt8 ∈ String.utf8EncodeChar c) : c = d := by
  have hbyte : ∀ v : Nat, d.toUInt8 = UInt8.ofNat v → v % 256 = d.val.toNat := by
    intro v hv
    have hnat := congrArg UInt8.toNat hv
    rw [UInt8.toNat_ofNat', Char.toUInt8, UInt32.toNat_toUInt8] at hnat
    omega
  rw [String.utf8EncodeChar.eq_1] at h
  split_ifs at h with hone htwo hthree
  · rw [List.mem_singleton] at h
    have hv := hbyte _ h
    apply Char.ext
    apply UInt32.toNat_inj.mp
    omega
  -- every byte of a longer form is at least 128
  · simp only [List.mem_cons, List.not_mem_nil, or_false] at h
    rcases h with h | h
    all_goals have := hbyte _ h; omega
  · simp only [List.mem_cons, List.not_mem_nil, or_false] at h
    rcases h with h | h | h
    all_goals have := hbyte _ h; omega
  · simp only [List.mem_cons, List.not_mem_nil, or_false] at h
    rcases h with h | h | h | h
    all_goals have := hbyte _ h; omega

section Ascii

variable {d : Char} (hd : d.val.toNat < 128)

include hd

theorem utf8EncodeChar_of_ascii : String.utf8EncodeChar d = [d.toUInt8] := by
  rw [String.utf8EncodeChar.eq_1, if_pos (by omega)]
  rfl

/-- Of the bytes of one character, only that of an ASCII character itself is its byte. -/
theorem count_utf8EncodeChar (c : Char) :
    (String.utf8EncodeChar c).count d.toUInt8 = if c = d then 1 else 0 := by
  split_ifs with hc
  · rw [hc, utf8EncodeChar_of_ascii hd, List.count_singleton_self]
  · exact List.count_eq_zero.mpr fun h => hc (eq_of_toUInt8_mem_utf8EncodeChar hd h)

/-- A byte of a text is that of an ASCII character exactly where the character stands. -/
theorem getElem?_bytes_eq_iff {text : Text} {i : Nat} :
    text.bytes[i]? = some d.toUInt8
      ↔ ∃ before after, text = before ++ d :: after ∧ i = before.bytes.length := by
  constructor
  · intro h
    induction text generalizing i with
    | nil => simp [bytes] at h
    | cons c rest ih =>
      rw [bytes_cons, List.getElem?_append] at h
      split at h
      · rename_i hi
        have hc := eq_of_toUInt8_mem_utf8EncodeChar hd (List.mem_of_getElem? h)
        subst hc
        rw [utf8EncodeChar_of_ascii hd, List.length_singleton] at hi
        exact ⟨[], rest, rfl, Nat.lt_one_iff.mp hi⟩
      · rename_i hi
        obtain ⟨before, after, hrest, hlen⟩ := ih h
        refine ⟨c :: before, after, by rw [hrest, List.cons_append], ?_⟩
        rw [bytes_cons, List.length_append]
        omega
  · intro h
    obtain ⟨before, after, htext, hi⟩ := h
    rw [htext, bytes_append, bytes_cons, utf8EncodeChar_of_ascii hd, hi,
      List.getElem?_append_right (Nat.le_refl _), Nat.sub_self]
    rfl

/-- A text has as many bytes of an ASCII character as it has such characters. -/
theorem count_bytes (text : Text) : text.bytes.count d.toUInt8 = text.count d := by
  induction text with
  | nil => rfl
  | cons c rest ih =>
    rw [bytes_cons, List.count_append, count_utf8EncodeChar hd, ih, List.count_cons, Nat.add_comm]
    simp only [beq_iff_eq]

end Ascii

/-- A byte of a text is a line feed exactly where the character is one. -/
theorem getElem?_bytes_eq_newline_iff {text : Text} {i : Nat} :
    text.bytes[i]? = some '\n'.toUInt8
      ↔ ∃ before after, text = before ++ '\n' :: after ∧ i = before.bytes.length :=
  getElem?_bytes_eq_iff (by decide)

/-- A text has as many bytes that are line feeds as characters. -/
theorem count_bytes_newline (text : Text) : text.bytes.count '\n'.toUInt8 = text.count '\n' :=
  count_bytes (by decide) text

/-- Only a NUL has a zero among its bytes. -/
theorem zero_not_mem_bytes {text : Text} (h : '\x00' ∉ text) : 0 ∉ bytes text := by
  rw [← List.count_eq_zero] at h ⊢
  exact (count_bytes (d := '\x00') (by decide) text).trans h

/-! ### Boundaries -/

/-- An offset is a character boundary exactly where the text falls into two parts. -/
theorem isValid_iff {text : Text} {p : String.Pos.Raw} :
    p.IsValid (String.ofList text)
      ↔ ∃ before after, text = before ++ after ∧ p.byteIdx = (bytes before).length := by
  rw [String.Pos.Raw.isValid_iff_exists_append]
  constructor
  · rintro ⟨s₁, s₂, hsplit, rfl⟩
    refine ⟨s₁.toList, s₂.toList, ?_, ?_⟩
    · rw [← String.toList_append, ← hsplit, String.toList_ofList]
    · rw [length_bytes, String.ofList_toList]
      rfl
  · rintro ⟨before, after, rfl, hp⟩
    refine ⟨String.ofList before, String.ofList after, String.ofList_append, ?_⟩
    rw [length_bytes] at hp
    exact String.Pos.Raw.ext hp

/-- The whole characters among the first bytes of a text: no boundary lies between their end and the offset, and
among the bytes there are no other ASCII characters. -/
theorem exists_wholeCharacters (text : Text) :
    ∀ offset, ∃ before after, text = before ++ after ∧ before.bytes.length ≤ offset ∧
      (∀ u v, text = u ++ v → u.bytes.length ≤ offset → u.bytes.length ≤ before.bytes.length) ∧
      ∀ d : Char, d.val.toNat < 128 → (text.bytes.take offset).count d.toUInt8 = before.count d := by
  induction text with
  | nil =>
    intro offset
    refine ⟨[], [], rfl, Nat.zero_le _, ?_, ?_⟩
    · intro u v h _
      obtain ⟨rfl, -⟩ := List.nil_eq_append_iff.mp h
      exact Nat.le_refl _
    · intro d _
      simp [bytes]
  | cons c rest ih =>
    intro offset
    by_cases hfits : (String.utf8EncodeChar c).length ≤ offset
    · obtain ⟨before, after, rfl, hle, hlast, hcount⟩ := ih (offset - (String.utf8EncodeChar c).length)
      refine ⟨c :: before, after, rfl, by rw [bytes_cons, List.length_append]; omega, ?_, ?_⟩
      · intro u v h hu
        cases u with
        | nil => exact Nat.zero_le _
        | cons x u =>
          obtain ⟨rfl, hrest⟩ := List.cons.inj h
          rw [bytes_cons, List.length_append] at hu ⊢
          have hbelow := hlast u v hrest (by omega)
          rw [bytes_cons, List.length_append]
          omega
      · intro d hd
        rw [bytes_cons, List.take_append, List.take_of_length_le hfits, List.count_append, hcount d hd,
          count_utf8EncodeChar hd, List.count_cons, Nat.add_comm]
        simp only [beq_iff_eq]
    · -- the offset lies within the first character, of which no part is ASCII if it has several bytes
      refine ⟨[], c :: rest, rfl, Nat.zero_le _, ?_, ?_⟩
      · intro u v h hu
        cases u with
        | nil => exact Nat.le_refl _
        | cons x u =>
          obtain ⟨rfl, -⟩ := List.cons.inj h
          rw [bytes_cons, List.length_append] at hu
          omega
      · intro d hd
        rw [bytes_cons, List.take_append_of_le_length (by omega), List.count_nil, List.count_eq_zero]
        intro hmem
        obtain rfl := eq_of_toUInt8_mem_utf8EncodeChar hd (List.mem_of_mem_take hmem)
        rw [utf8EncodeChar_of_ascii hd, List.length_singleton] at hfits
        obtain rfl : offset = 0 := by omega
        cases hmem

end CodeAtlas.Text
