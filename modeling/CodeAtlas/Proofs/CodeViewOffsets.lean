import CodeAtlas.CodeView
import CodeAtlas.Proofs.TextBytes

/-!
# The code view stands byte for byte under the text

Offsets that are found in the code view are used in the text. This file says why that is safe: a character
is copied, or spaces of its width stand in its place.

* `CodeView.Masks`: a view that copies or blanks each character in its place;
* `CodeView.modeAfter`, `CodeView.viewFrom_append`: the view of a text that is read in two parts;
* `CodeView.codeView_byte_aligned`: lengths, places, boundaries and bytes.
-/

namespace CodeAtlas

/-! ### Views that keep every character in its place -/

namespace CodeView

theorem bytes_replicate_space (n : Nat) :
    Text.bytes (List.replicate n ' ') = List.replicate n ' '.toUInt8 := by
  induction n with
  | zero => rfl
  | succ n ih =>
    rw [List.replicate_succ, Text.bytes_cons, ih, List.replicate_succ]
    rfl

/-- A view copies each character of a text, or blanks it with as many spaces as it has bytes. -/
inductive Masks : Text → Text → Prop
  | nil : Masks [] []
  | keep (c : Char) {view text : Text} : Masks view text → Masks (c :: view) (c :: text)
  | blank (c : Char) {view text : Text} : Masks view text → Masks (blanks c ++ view) (c :: text)

namespace Masks

variable {view text : Text}

theorem length_bytes (h : Masks view text) : view.bytes.length = text.bytes.length := by
  induction h with
  | nil => rfl
  | keep c _ ih => rw [Text.bytes_cons, Text.bytes_cons, List.length_append, ih, List.length_append]
  | blank c _ ih =>
    rw [Text.bytes_append, Text.bytes_cons, List.length_append, ih, List.length_append, blanks,
      bytes_replicate_space, List.length_replicate, String.length_utf8EncodeChar]

/-- Where the text falls into two parts, so does its view. -/
theorem split {before after : Text} (h : Masks view (before ++ after)) :
    ∃ v w, view = v ++ w ∧ Masks v before ∧ Masks w after := by
  induction before generalizing view with
  | nil => exact ⟨[], view, rfl, .nil, h⟩
  | cons c before ih =>
    cases h with
    | keep _ h =>
      obtain ⟨v, w, rfl, hv, hw⟩ := ih h
      exact ⟨c :: v, w, rfl, .keep c hv, hw⟩
    | blank _ h =>
      obtain ⟨v, w, rfl, hv, hw⟩ := ih h
      exact ⟨blanks c ++ v, w, (List.append_assoc _ _ _).symm, .blank c hv, hw⟩

theorem isValid (h : Masks view text) {p : String.Pos.Raw} (hp : p.IsValid (String.ofList text)) :
    p.IsValid (String.ofList view) := by
  obtain ⟨before, after, rfl, hindex⟩ := Text.isValid_iff.mp hp
  obtain ⟨v, w, rfl, hv, -⟩ := h.split
  exact Text.isValid_iff.mpr ⟨v, w, rfl, hindex.trans hv.length_bytes.symm⟩

/-- A byte that is no space is the byte of the text. -/
theorem getElem?_bytes (h : Masks view text) {i : Nat} {b : UInt8} (hb : view.bytes[i]? = some b)
    (hspace : b ≠ ' '.toUInt8) : text.bytes[i]? = some b := by
  induction h generalizing i with
  | nil => exact hb
  | keep c _ ih =>
    rw [Text.bytes_cons, List.getElem?_append] at hb ⊢
    split
    · rwa [if_pos (by assumption)] at hb
    · rw [if_neg (by assumption)] at hb
      exact ih hb
  | blank c _ ih =>
    rw [Text.bytes_append, blanks, bytes_replicate_space, List.getElem?_append, List.length_replicate] at hb
    rw [Text.bytes_cons, List.getElem?_append, String.length_utf8EncodeChar]
    split
    · -- within the blanks there are only spaces
      rename_i hi
      rw [if_pos hi, List.getElem?_replicate_of_lt hi, Option.some.injEq] at hb
      exact absurd hb.symm hspace
    · rw [if_neg (by assumption)] at hb
      exact ih hb

end Masks

/-! ### The view is such a view -/

/-- The mode of the reader after the characters `before`, which are followed by `rest`. -/
def modeAfter (family : RuleFamily) (mode : Mode) (before rest : Text) : Mode :=
  match before with
  | [] => mode
  | c :: before => modeAfter family (advance family mode c (before ++ rest)).2 before rest

theorem viewFrom_cons (family : RuleFamily) (mode : Mode) (c : Char) (rest : Text) :
    viewFrom family mode (c :: rest)
      = (if (advance family mode c rest).1 then [c] else blanks c)
        ++ viewFrom family (advance family mode c rest).2 rest := rfl

/-- **Reading on**: after a part of the text, the view of the rest follows the masked part. -/
theorem viewFrom_append (family : RuleFamily) (before rest : Text) :
    ∀ mode, ∃ v, Masks v before ∧
      viewFrom family mode (before ++ rest)
        = v ++ viewFrom family (modeAfter family mode before rest) rest := by
  induction before with
  | nil => intro mode; exact ⟨[], .nil, rfl⟩
  | cons c before ih =>
    intro mode
    obtain ⟨v, hv, hview⟩ := ih (advance family mode c (before ++ rest)).2
    rw [List.cons_append, viewFrom_cons, hview]
    cases (advance family mode c (before ++ rest)).1 with
    | true => exact ⟨c :: v, .keep c hv, rfl⟩
    | false => exact ⟨blanks c ++ v, .blank c hv, (List.append_assoc _ _ _).symm⟩

theorem codeView_masks (family : RuleFamily) (text : Text) : Masks (codeView family text) text := by
  obtain ⟨v, hv, hview⟩ := viewFrom_append family text [] .code
  rw [List.append_nil] at hview
  rw [codeView, hview, viewFrom, List.append_nil]
  exact hv

/-- **The code view is aligned with the text.** It has as many bytes. Every character is copied at its own
offset, or blanked there with spaces of its width, as the reader decides in the mode it has reached. So the
boundaries of the text are boundaries of the view, and a byte that is no space is the byte of the text. -/
theorem codeView_byte_aligned (family : RuleFamily) (text : Text) :
    (codeView family text).bytes.length = text.bytes.length ∧
    (∀ before c after, text = before ++ c :: after →
      ∃ v w, v.bytes.length = before.bytes.length ∧
        codeView family text = v
          ++ (if (advance family (modeAfter family .code before (c :: after)) c after).1 then [c]
              else List.replicate c.utf8Size ' ') ++ w) ∧
    (∀ p : String.Pos.Raw, p.IsValid (String.ofList text) →
      p.IsValid (String.ofList (codeView family text))) ∧
    ∀ (i : Nat) (b : UInt8), (codeView family text).bytes[i]? = some b → b ≠ ' '.toUInt8 →
      text.bytes[i]? = some b := by
  have hmasks := codeView_masks family text
  refine ⟨hmasks.length_bytes, ?_, fun p => hmasks.isValid, fun i b => hmasks.getElem?_bytes⟩
  intro before c after htext
  obtain ⟨v, hv, hview⟩ := viewFrom_append family before (c :: after) .code
  rw [viewFrom_cons, ← List.append_assoc] at hview
  rw [codeView, htext]
  exact ⟨v, _, hv.length_bytes, hview⟩

/-- A character of two bytes after a backslash in a string gives way to two spaces. -/
theorem codeView_escaped_accent :
    codeView .cFamily ['"', '\\', 'é', '"', 'x'] = [' ', ' ', ' ', ' ', ' ', 'x'] ∧
      ∃ v w, v.bytes.length = (Text.bytes ['"', '\\']).length ∧
        codeView .cFamily ['"', '\\', 'é', '"', 'x'] = v ++ [' ', ' '] ++ w := by
  obtain ⟨-, hplaces, -⟩ := codeView_byte_aligned .cFamily ['"', '\\', 'é', '"', 'x']
  exact ⟨by decide, hplaces ['"', '\\'] 'é' ['"', 'x'] rfl⟩

end CodeView

end CodeAtlas
