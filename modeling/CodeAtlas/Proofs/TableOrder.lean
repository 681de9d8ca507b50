import CodeAtlas.Proofs.NameIndex
import CodeAtlas.Proofs.Sequences

/-!
# The order of the table

The table sorts the symbols by file, first line and name, and keeps one of those that agree in all three.
So no two of its symbols have one identity, and an identity leads back to its position.

* `SymbolTable.keyOrder`: the order of symbols as one comparison;
* `SymbolTable.ofFragments_pairwise`: the symbols of a table ascend strictly;
* `SymbolTable.positionOf?_ofFragments`: the identity of a symbol is found at its position.
-/

namespace CodeAtlas

/-! ### The order of symbols -/

theorem Symbol.is_iff (s : Symbol) (id : SymbolId) : s.is id = true ↔ s.id = id := by
  cases id
  simp [is, Symbol.id]
  tauto

namespace SymbolTable

/-- The order of symbols: by file, then by first line, then by name. -/
def keyOrder : Symbol → Symbol → Ordering :=
  compareLex (compareOn Symbol.file) (compareLex (compareOn Symbol.startLine) (compareOn Symbol.name))

instance : Std.TransCmp keyOrder :=
  inferInstanceAs (Std.TransCmp (compareLex _ _))

theorem keyOrder_eq (a b : Symbol) :
    keyOrder a b
      = (compare a.file b.file).then ((compare a.startLine b.startLine).then (compare a.name b.name)) :=
  rfl

theorem inOrder_iff (a b : Symbol) : inOrder a b = true ↔ (keyOrder a b).isLE = true := by
  have hname : (compare a.name b.name).isLE = true ↔ a.name ≤ b.name :=
    isLE_compareOfLessAndEq String.le_antisymm String.not_le String.le_total
  rw [inOrder, keyOrder_eq]
  cases compare a.file b.file with
  | lt => simp [Ordering.then]
  | gt => simp [Ordering.then]
  | eq =>
    simp only [Ordering.then, Bool.or_eq_true, Bool.and_eq_true, decide_eq_true_eq, beq_iff_eq]
    rcases Nat.lt_trichotomy a.startLine b.startLine with h | h | h
    · simp [Nat.compare_eq_lt.mpr h, h]
    · simp [h, hname]
    · simp only [Nat.compare_eq_gt.mpr h, Ordering.isLE_gt, Bool.false_eq_true, iff_false]
      omega

theorem keyOrder_swap (a b : Symbol) : keyOrder b a = (keyOrder a b).swap :=
  Std.OrientedCmp.eq_swap

theorem sameId_iff (a b : Symbol) : sameId a b = true ↔ a.id = b.id := by
  simp [sameId, Symbol.id]
  tauto

theorem keyOrder_eq_iff (a b : Symbol) : keyOrder a b = .eq ↔ a.id = b.id := by
  simp [keyOrder_eq, Ordering.then_eq_eq, Symbol.id]
  tauto

/-- **The symbols of a table ascend strictly.** -/
theorem ofFragments_pairwise (fragments : List Fragment) :
    (ofFragments fragments).symbols.Pairwise fun a b => keyOrder a b = .lt := by
  apply eraseRepsBy_sortBy_strict inOrder_iff
  intro a b
  rw [sameId_iff, keyOrder_eq_iff]

/-- The identity of a symbol is found at its position. -/
theorem positionOf?_ofFragments {fragments : List Fragment} {i : Nat} {s : Symbol}
    (h : (ofFragments fragments).symbols[i]? = some s) :
    (ofFragments fragments).positionOf? s.id = some i := by
  -- the symbols ascend, so two places with one identity are one place
  have hunique : ∀ j t, (ofFragments fragments).symbols[j]? = some t → t.id = s.id → j = i := by
    intro j t ht hid
    have hpair := List.pairwise_iff_getElem.mp (ofFragments_pairwise fragments)
    obtain ⟨hi, rfl⟩ := List.getElem?_eq_some_iff.mp h
    obtain ⟨hj, rfl⟩ := List.getElem?_eq_some_iff.mp ht
    have hsame := (keyOrder_eq_iff _ _).mpr hid
    rcases Nat.lt_trichotomy i j with hij | hij | hij
    · have hlt := hpair i j hi hj hij
      rw [keyOrder_swap, hlt] at hsame
      cases hsame
    · exact hij.symm
    · rw [hpair j i hj hi hij] at hsame
      cases hsame
  have hmem : i ∈ (ofFragments fragments).positions s.id.name :=
    (ofFragments fragments).mem_positions.mpr ⟨s, h, rfl⟩
  rw [positionOf?]
  cases hfind : ((ofFragments fragments).positions s.id.name).find?
      fun j => (ofFragments fragments).symbols[j]?.any (·.is s.id) with
  | none =>
    have hnot := List.find?_eq_none.mp hfind i hmem
    simp [h, Symbol.is_iff] at hnot
  | some j =>
    have hj := List.find?_some hfind
    rw [Option.any_eq_true] at hj
    obtain ⟨t, ht, hid⟩ := hj
    rw [hunique j t ht ((t.is_iff s.id).mp hid)]

end SymbolTable

end CodeAtlas
