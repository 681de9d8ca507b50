import CodeAtlas.Proofs.CodeViewOffsets
import CodeAtlas.Text.Blank

/-!
# Where a text can be cut

A text can be cut at the offsets between two of its characters. This file says what cutting gives there, and
which offsets of a code view are such offsets of the text.

* `Text.IsBoundary`: an offset between two characters;
* `Text.StandsAt`: the offset of a character;
* `Text.IsBoundary.exists_slice?`: what stands between two boundaries can be cut out;
* `CodeView.Masks.standsAt`: a character of a view that is no space stands in the text.
-/

namespace CodeAtlas

/-- A text is cut at the first place of a character in one way only. -/
theorem append_cons_inj_of_not_mem {α : Type} {c : α} {xs ys zs ws : List α} (hx : c ∉ xs) (hy : c ∉ ys)
    (h : xs ++ c :: zs = ys ++ c :: ws) : xs = ys ∧ zs = ws := by
  rcases List.append_eq_append_iff.mp h with ⟨more, rfl, hmore⟩ | ⟨more, rfl, hmore⟩
  · cases more with
    | nil => exact ⟨(List.append_nil xs).symm, (List.cons.inj hmore).2⟩
    | cons d more =>
      obtain ⟨rfl, -⟩ := List.cons.inj hmore
      exact absurd (List.mem_append_right xs List.mem_cons_self) hy
  · cases more with
    | nil => exact ⟨List.append_nil ys, (List.cons.inj hmore).2.symm⟩
    | cons d more =>
      obtain ⟨rfl, -⟩ := List.cons.inj hmore
      exact absurd (List.mem_append_right ys List.mem_cons_self) hx

/-- A text is cut in one way only where the characters of a kind come to their end. -/
theorem append_inj_of_all {α : Type} {p : α → Bool} {xs ys zs ws : List α} (hx : ∀ c ∈ xs, p c = true)
    (hy : ∀ c ∈ ys, p c = true) (hz : ∀ c, zs.head? = some c → p c = false) (hw : ∀ c, ws.head? = some c → p c = false)
    (h : xs ++ zs = ys ++ ws) : xs = ys ∧ zs = ws := by
  -- an element that only one of both has would be the first one behind the other
  have hnil : ∀ {more rest rest' : List α}, (∀ c ∈ more, p c = true) → (∀ c, rest'.head? = some c → p c = false) →
      rest' = more ++ rest → more = [] := by
    intro more rest rest' hmore hrest h
    cases more with
    | nil => rfl
    | cons c more =>
      have hc := hrest c (by rw [h]; rfl)
      rw [hmore c List.mem_cons_self] at hc
      cases hc
  rcases List.append_eq_append_iff.mp h with ⟨more, rfl, hmore⟩ | ⟨more, rfl, hmore⟩
  · obtain rfl := hnil (fun c hc => hy c (List.mem_append_right xs hc)) hz hmore
    exact ⟨(List.append_nil xs).symm, hmore⟩
  · obtain rfl := hnil (fun c hc => hx c (List.mem_append_right ys hc)) hw hmore
    exact ⟨List.append_nil ys, hmore.symm⟩

namespace Text

/-- Of two beginnings of a text, the one that is not longer is a beginning of the other. -/
theorem exists_append_of_size_le {a b c d : Text} (h : a ++ b = c ++ d) (hle : a.size ≤ c.size) :
    ∃ e, c = a ++ e ∧ b = e ++ d := by
  rcases List.append_eq_append_iff.mp h with he | ⟨e, rfl, rfl⟩
  · exact he
  · rw [size_append] at hle
    obtain rfl : e = [] := eq_nil_of_size_eq_zero (by omega)
    exact ⟨[], by simp, rfl⟩

theorem exists_cons_of_size_lt {u v r t : Text} {c : Char} (h : u ++ c :: r = v ++ t) (hlt : u.size < v.size) :
    ∃ w, v = u ++ c :: w ∧ r = w ++ t := by
  obtain ⟨e, rfl, he⟩ := exists_append_of_size_le h (Nat.le_of_lt hlt)
  cases e with
  | nil =>
    rw [List.append_nil] at hlt
    omega
  | cons d w =>
    obtain ⟨rfl, rfl⟩ := List.cons.inj he
    exact ⟨w, rfl, rfl⟩

/-- Two beginnings of a text that have one size are equal. -/
theorem append_inj_of_size {a b c d : Text} (h : a ++ b = c ++ d) (hsize : a.size = c.size) :
    a = c ∧ b = d := by
  obtain ⟨e, rfl, rfl⟩ := exists_append_of_size_le h (Nat.le_of_eq hsize)
  rw [size_append] at hsize
  obtain rfl : e = [] := eq_nil_of_size_eq_zero (by omega)
  exact ⟨(List.append_nil a).symm, rfl⟩

/-- ASCII blanks take one byte each. -/
theorem size_eq_length_of_asciiBlank {text : Text} (h : ∀ c ∈ text, isAsciiBlank c = true) :
    size text = text.length := by
  induction text with
  | nil => rfl
  | cons c rest ih =>
    have hc : c.utf8Size = 1 := by
      have hblank := h c List.mem_cons_self
      simp only [isAsciiBlank, Bool.or_eq_true, beq_iff_eq] at hblank
      rcases hblank with (((rfl | rfl) | rfl) | rfl) | rfl <;> rfl
    rw [size_cons, List.length_cons, hc, ih fun d hd => h d (List.mem_cons_of_mem c hd), Nat.add_comm]

/-! ### Cutting -/

theorem sliceFrom?_size (before after : Text) : sliceFrom? before.size (before ++ after) = some after := by
  induction before with
  | nil => cases after <;> rfl
  | cons c before ih =>
    have hc := c.utf8Size_pos
    have hsize : size (c :: before) = c.utf8Size - 1 + size before + 1 := by rw [size_cons]; omega
    rw [hsize, List.cons_append, sliceFrom?, if_pos (by omega),
      show c.utf8Size - 1 + size before + 1 - c.utf8Size = size before from by omega, ih]

theorem sliceTo?_size (before after : Text) : sliceTo? before.size (before ++ after) = some before := by
  induction before with
  | nil => cases after <;> rfl
  | cons c before ih =>
    have hc := c.utf8Size_pos
    have hsize : size (c :: before) = c.utf8Size - 1 + size before + 1 := by rw [size_cons]; omega
    rw [hsize, List.cons_append, sliceTo?, if_pos (by omega),
      show c.utf8Size - 1 + size before + 1 - c.utf8Size = size before from by omega, ih, Option.map_some]

theorem slice?_size (before middle after : Text) :
    slice? before.size (before ++ middle).size (before ++ middle ++ after) = some middle := by
  rw [slice?, if_pos (by rw [size_append]; omega), List.append_assoc, sliceFrom?_size, Option.bind_some,
    show (before ++ middle).size - before.size = middle.size from by rw [size_append]; omega,
    sliceTo?_size]

theorem seekFrom_size (before after : Text) :
    ∀ offset, seekFrom (offset + before.size) offset (before ++ after) = (offset + before.size, after) := by
  induction before with
  | nil =>
    intro offset
    cases after with
    | nil => rfl
    | cons c after => simp [seekFrom]
  | cons c before ih =>
    intro offset
    have hc := c.utf8Size_pos
    rw [List.cons_append, seekFrom, if_pos (by rw [size_cons]; omega), size_cons, ← Nat.add_assoc]
    exact ih (offset + c.utf8Size)

theorem seek_size (before after : Text) : seek before.size (before ++ after) = (before.size, after) := by
  have h := seekFrom_size before after 0
  rw [Nat.zero_add] at h
  exact h

/-- Wherever one looks for an offset, one comes to a boundary that is not before it. -/
theorem exists_seekFrom (start : Nat) (text : Text) :
    ∀ offset, ∃ before after, text = before ++ after ∧
      seekFrom start offset text = (offset + before.size, after) ∧
      (after = [] ∨ start ≤ offset + before.size) := by
  induction text with
  | nil => intro offset; exact ⟨[], [], rfl, rfl, .inl rfl⟩
  | cons c rest ih =>
    intro offset
    rw [seekFrom]
    split_ifs with h
    · obtain ⟨before, after, hrest, hseek, hend⟩ := ih (offset + c.utf8Size)
      refine ⟨c :: before, after, by rw [hrest, List.cons_append], ?_, ?_⟩
      · rw [hseek, size_cons, Nat.add_assoc]
      · rw [size_cons, ← Nat.add_assoc]
        exact hend
    · exact ⟨[], c :: rest, rfl, rfl, .inr (by rw [size_nil]; omega)⟩

/-- No boundary lies between an offset and the place to which one comes by seeking it. -/
theorem seekFrom_le {start : Nat} (u v : Text) :
    ∀ {offset : Nat}, start ≤ offset + u.size → (seekFrom start offset (u ++ v)).1 ≤ offset + u.size := by
  induction u with
  | nil =>
    intro offset hle
    cases v with
    | nil => exact Nat.le_refl _
    | cons c v =>
      rw [List.nil_append, seekFrom, if_neg (by rw [size_nil] at hle; omega)]
      exact Nat.le_refl _
  | cons c u ih =>
    intro offset hle
    rw [size_cons, ← Nat.add_assoc] at hle ⊢
    rw [List.cons_append, seekFrom]
    split_ifs
    · exact ih hle
    · show offset ≤ offset + c.utf8Size + size u
      omega

/-! ### Boundaries and places of characters -/

/-- The offset lies between two characters of the text, or at one of its ends. -/
def IsBoundary (text : Text) (offset : Nat) : Prop :=
  ∃ before after, text = before ++ after ∧ offset = before.size

/-- The character starts at the offset of the text. -/
def StandsAt (text : Text) (c : Char) (offset : Nat) : Prop :=
  ∃ before after, text = before ++ c :: after ∧ offset = before.size

theorem isBoundary_size (before after : Text) : IsBoundary (before ++ after) before.size :=
  ⟨before, after, rfl, rfl⟩

theorem isBoundary_end (text : Text) : IsBoundary text text.size :=
  ⟨text, [], (List.append_nil text).symm, rfl⟩

theorem IsBoundary.le {text : Text} {offset : Nat} (h : IsBoundary text offset) : offset ≤ text.size := by
  obtain ⟨before, after, rfl, rfl⟩ := h
  rw [size_append]
  omega

theorem StandsAt.isBoundary {text : Text} {c : Char} {offset : Nat} (h : StandsAt text c offset) :
    IsBoundary text offset := by
  obtain ⟨before, after, htext, hoffset⟩ := h
  exact ⟨before, c :: after, htext, hoffset⟩

theorem StandsAt.isBoundary_after {text : Text} {c : Char} {offset : Nat} (h : StandsAt text c offset) :
    IsBoundary text (offset + c.utf8Size) := by
  obtain ⟨before, after, rfl, rfl⟩ := h
  exact ⟨before ++ [c], after, by simp, by simp⟩

theorem StandsAt.lt {text : Text} {c : Char} {offset : Nat} (h : StandsAt text c offset) :
    offset < text.size := by
  have hle := h.isBoundary_after.le
  have hc := c.utf8Size_pos
  omega

/-- Two boundaries cut the text into three parts. -/
theorem IsBoundary.exists_parts {text : Text} {start stop : Nat} (hstart : IsBoundary text start)
    (hstop : IsBoundary text stop) (hle : start ≤ stop) :
    ∃ before middle after, text = before ++ middle ++ after ∧ start = before.size ∧
      stop = (before ++ middle).size := by
  obtain ⟨a, b, htext, rfl⟩ := hstart
  obtain ⟨c, d, htext', rfl⟩ := hstop
  obtain ⟨e, rfl, rfl⟩ := exists_append_of_size_le (htext.symm.trans htext') hle
  exact ⟨a, e, d, htext', rfl, rfl⟩

/-- What stands between two boundaries can be cut out. -/
theorem IsBoundary.exists_slice? {text : Text} {start stop : Nat} (hstart : IsBoundary text start)
    (hstop : IsBoundary text stop) (hle : start ≤ stop) : ∃ part, text.slice? start stop = some part := by
  obtain ⟨before, middle, after, rfl, rfl, rfl⟩ := hstart.exists_parts hstop hle
  exact ⟨middle, slice?_size before middle after⟩

theorem IsBoundary.exists_sliceFrom? {text : Text} {start : Nat} (h : IsBoundary text start) :
    ∃ before after, text = before ++ after ∧ start = before.size ∧ text.sliceFrom? start = some after := by
  obtain ⟨before, after, rfl, rfl⟩ := h
  exact ⟨before, after, rfl, rfl, sliceFrom?_size before after⟩

/-- A character that stands between two boundaries is in the part between them. -/
theorem StandsAt.mem_middle {left middle right : Text} {c : Char} {offset : Nat}
    (h : StandsAt (left ++ middle ++ right) c offset) (hleft : left.size ≤ offset)
    (hright : offset < (left ++ middle).size) : c ∈ middle := by
  obtain ⟨before, after, hsplit, rfl⟩ := h
  rw [List.append_assoc] at hsplit
  obtain ⟨d, rfl, hrest⟩ := exists_append_of_size_le hsplit hleft
  rw [size_append, size_append] at hright
  obtain ⟨e, rfl, -⟩ := exists_cons_of_size_lt hrest.symm (by omega)
  exact List.mem_append_right d List.mem_cons_self

theorem charAt?_eq_some_iff {text : Text} {c : Char} {offset : Nat} :
    text.charAt? offset = some c ↔ StandsAt text c offset := by
  constructor
  · intro h
    obtain ⟨before, after, htext, hseek, -⟩ := exists_seekFrom offset text 0
    rw [charAt?, seek, hseek] at h
    dsimp only at h
    split_ifs at h with hoffset
    cases after with
    | nil => cases h
    | cons d after =>
      have hd : d = c := by simpa using h
      exact ⟨before, after, by rw [htext, hd], by omega⟩
  · intro h
    obtain ⟨before, after, rfl, rfl⟩ := h
    simp [charAt?, seek_size]

end Text

/-! ### Places in a view and in its text -/

namespace CodeView.Masks

variable {view text : Text}

theorem size_blanks (c : Char) : (blanks c).size = c.utf8Size := by
  have hsize : ∀ n, Text.size (List.replicate n ' ') = n := by
    intro n
    induction n with
    | zero => rfl
    | succ n ih =>
      rw [List.replicate_succ, Text.size_cons, ih, show ' '.utf8Size = 1 from rfl, Nat.add_comm]
  exact hsize _

theorem size_eq (h : Masks view text) : view.size = text.size := by
  induction h with
  | nil => rfl
  | keep c _ ih => rw [Text.size_cons, Text.size_cons, ih]
  | blank c _ ih => rw [Text.size_append, size_blanks, ih, Text.size_cons]

theorem append {view' text' : Text} (h : Masks view text) (h' : Masks view' text') :
    Masks (view ++ view') (text ++ text') := by
  induction h with
  | nil => exact h'
  | keep c _ ih => exact .keep c ih
  | blank c _ ih =>
    rw [List.append_assoc]
    exact .blank c ih

theorem isBoundary (h : Masks view text) {offset : Nat} (hoffset : text.IsBoundary offset) :
    view.IsBoundary offset := by
  obtain ⟨before, after, rfl, rfl⟩ := hoffset
  obtain ⟨v, w, rfl, hv, -⟩ := h.split
  exact ⟨v, w, rfl, hv.size_eq.symm⟩

/-- Around a character of the view that is no space, the text falls into parts that are masked apart. -/
theorem exists_around (h : Masks view text) {v w : Text} {c : Char} (hview : view = v ++ c :: w)
    (hc : c ≠ ' ') : ∃ before after, text = before ++ c :: after ∧ Masks v before ∧ Masks w after := by
  induction h generalizing v with
  | nil => exact absurd hview (by simp)
  | @keep d view text hrest ih =>
    cases v with
    | nil =>
      obtain ⟨rfl, rfl⟩ := List.cons.inj hview
      exact ⟨[], text, rfl, .nil, hrest⟩
    | cons e v =>
      obtain ⟨rfl, htail⟩ := List.cons.inj hview
      obtain ⟨before, after, rfl, hv, hw⟩ := ih htail
      exact ⟨d :: before, after, rfl, .keep d hv, hw⟩
  | @blank d view text hrest ih =>
    -- the character stands behind the blanks, since it is none of them
    rcases List.append_eq_append_iff.mp hview with ⟨e, rfl, htail⟩ | ⟨e, hblanks, htail⟩
    · obtain ⟨before, after, rfl, hv, hw⟩ := ih htail
      exact ⟨d :: before, after, rfl, .blank d hv, hw⟩
    · cases e with
      | nil =>
        obtain ⟨before, after, rfl, hv, hw⟩ := ih (v := []) htail.symm
        refine ⟨d :: before, after, rfl, ?_, hw⟩
        rw [List.append_nil] at hblanks
        have hv := Masks.blank d hv
        rwa [List.append_nil, hblanks] at hv
      | cons e _ =>
        have he : e = c := (List.cons.inj htail).1.symm
        have hmem : c ∈ blanks d := by
          rw [hblanks, he]
          exact List.mem_append_right v List.mem_cons_self
        exact absurd (List.eq_of_mem_replicate hmem) hc

/-- A character of the view that is no space stands in the text at its offset. -/
theorem standsAt (h : Masks view text) {c : Char} {offset : Nat} (hview : view.StandsAt c offset)
    (hc : c ≠ ' ') : text.StandsAt c offset := by
  obtain ⟨v, w, hsplit, rfl⟩ := hview
  obtain ⟨before, after, htext, hv, -⟩ := h.exists_around hsplit hc
  exact ⟨before, after, htext, hv.size_eq⟩

end CodeView.Masks

end CodeAtlas
