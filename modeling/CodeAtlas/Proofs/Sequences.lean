import CodeAtlas.Sequence
import Mathlib.Data.List.Forall2
import Mathlib.Data.List.Induction
import Mathlib.Data.List.Nodup
import Mathlib.Data.List.Sort

/-!
# Sorted sequences and first occurrences

Symbols and keys are sorted, repeats among neighbours are dropped, and of a list the first occurrences are kept. This
file says what each of them gives, for any order and any elements.

* `sortBy_eq_insertionSort`: sorting, in terms of the library; so nothing is lost (`mem_sortBy`, `sortBy_perm`);
* `sortBy_ascends`, `sortBy_strict`, `eraseRepsBy_sortBy_strict`: what is sorted by a comparison ascends;
* `find?_sortBy`, `find?_eraseRepsBy`: the first of the elements that agree stays the first;
* `sortBy_forall₂`, `eraseRepsBy_forall₂`: two runs over related lists;
* `eraseDups_concat`: first occurrences, read from the end of a list.
-/

namespace CodeAtlas

/-! ### Sorting -/

section Sorting

variable {α : Type} {le same : α → α → Bool} {p : α → Bool} {R : α → α → Prop}

/-- Sorting is the insertion sort of the library. -/
theorem sortBy_eq_insertionSort (list : List α) :
    sortBy le list = list.insertionSort fun a b => le a b = true := by
  have hinsert : insertBy le = List.orderedInsert fun a b => le a b = true := by
    funext a list
    induction list with
    | nil => rfl
    | cons b rest ih => rw [insertBy, ih, List.orderedInsert_cons]
  rw [sortBy, hinsert]
  rfl

theorem mem_sortBy {a : α} (list : List α) : a ∈ sortBy le list ↔ a ∈ list := by
  rw [sortBy_eq_insertionSort, List.mem_insertionSort]

theorem sortBy_perm (list : List α) : (sortBy le list).Perm list := by
  rw [sortBy_eq_insertionSort]
  exact List.perm_insertionSort _ list

theorem sortBy_pairwise (htotal : ∀ a b, le a b = true ∨ le b a = true)
    (htrans : ∀ a b c, le a b = true → le b c = true → le a c = true) (list : List α) :
    (sortBy le list).Pairwise fun a b => le a b = true := by
  have : Std.Total fun a b => le a b = true := ⟨htotal⟩
  have : IsTrans α fun a b => le a b = true := ⟨htrans⟩
  rw [sortBy_eq_insertionSort]
  exact List.pairwise_insertionSort _ list

theorem find?_insertBy (hp : ∀ a b, p a = true → p b = true → le a b = true) (a : α) (list : List α) :
    (insertBy le a list).find? p = (a :: list).find? p := by
  induction list with
  | nil => rfl
  | cons b rest ih =>
    rw [insertBy]
    split
    · rfl
    · rename_i hab
      -- `b` stays in front of `a`, so at most one of them is looked for
      by_cases hb : p b = true
      · have ha : p a ≠ true := fun ha => hab (hp a b ha hb)
        rw [List.find?_cons_of_pos hb, List.find?_cons_of_neg ha, List.find?_cons_of_pos hb]
      · rw [List.find?_cons_of_neg hb, ih]
        simp only [List.find?_cons, hb]

/-- **The sort is stable**: of the elements that are looked for, if the order cannot tell them apart, the first
one stays first. -/
theorem find?_sortBy (hp : ∀ a b, p a = true → p b = true → le a b = true) (list : List α) :
    (sortBy le list).find? p = list.find? p := by
  induction list with
  | nil => rfl
  | cons a rest ih =>
    show (insertBy le a (sortBy le rest)).find? p = (a :: rest).find? p
    rw [find?_insertBy hp, List.find?_cons, List.find?_cons, ih]

/-- Two runs of a sort go the same way if the order cannot tell related elements apart. -/
theorem sortBy_forall₂ (hle : ∀ {a a' b b'}, R a a' → R b b' → le a b = le a' b') {l l' : List α}
    (h : List.Forall₂ R l l') : List.Forall₂ R (sortBy le l) (sortBy le l') := by
  have hinsert : ∀ {a a' : α}, R a a' → ∀ {l l' : List α}, List.Forall₂ R l l' →
      List.Forall₂ R (insertBy le a l) (insertBy le a' l') := by
    intro a a' ha l l' h
    induction h with
    | nil => exact .cons ha .nil
    | cons hb hrest ih =>
      rw [insertBy, insertBy, hle ha hb]
      split_ifs
      · exact .cons ha (.cons hb hrest)
      · exact .cons hb ih
  induction h with
  | nil => exact .nil
  | cons ha _ ih => exact hinsert ha ih

section Comparison

variable {cmp : α → α → Ordering} [Std.TransCmp cmp]

theorem le_trans_of_cmp (hle : ∀ a b, le a b = true ↔ (cmp a b).isLE = true) (a b c : α) (hab : le a b = true)
    (hbc : le b c = true) : le a c = true := by
  rw [hle] at *
  exact Std.TransCmp.isLE_trans hab hbc

/-- Sorted by a comparison, a list ascends. -/
theorem sortBy_ascends (hle : ∀ a b, le a b = true ↔ (cmp a b).isLE = true) (list : List α) :
    (sortBy le list).Pairwise fun a b => le a b = true := by
  have htotal : ∀ a b, le a b = true ∨ le b a = true := by
    intro a b
    have hswap : cmp b a = (cmp a b).swap := Std.OrientedCmp.eq_swap
    rw [hle, hle, hswap]
    cases cmp a b <;> simp
  exact sortBy_pairwise htotal (le_trans_of_cmp hle) list

/-- Sorted by a comparison that tells all its elements apart, a list ascends strictly. -/
theorem sortBy_strict (hle : ∀ a b, le a b = true ↔ (cmp a b).isLE = true) {list : List α}
    (hapart : list.Pairwise fun a b => cmp a b ≠ .eq) :
    (sortBy le list).Pairwise fun a b => cmp a b = .lt := by
  have hsymm : ∀ {a b : α}, cmp a b ≠ .eq → cmp b a ≠ .eq := by
    intro a b hab hba
    have hswap : cmp b a = (cmp a b).swap := Std.OrientedCmp.eq_swap
    rw [hswap, Ordering.swap_eq_eq] at hba
    exact hab hba
  have hperm : (sortBy le list).Perm list := sortBy_perm list
  have hstays := (hperm.pairwise_iff hsymm).mpr hapart
  refine ((sortBy_ascends hle list).and hstays).imp ?_
  intro a b hab
  obtain ⟨hlt, hne⟩ := hab
  rw [hle] at hlt
  cases hcmp : cmp a b with
  | lt => rfl
  | eq => exact absurd hcmp hne
  | gt =>
    rw [hcmp] at hlt
    cases hlt

end Comparison

/-! ### Neighbours that agree -/

/-- What was kept before goes in front. -/
theorem eraseRepsBy_loop (a : α) (list kept : List α) :
    List.eraseRepsBy.loop same a list kept = kept.reverse ++ (a :: list).eraseRepsBy same := by
  induction list generalizing a kept with
  | nil => exact List.reverse_cons
  | cons b list ih =>
    rw [List.eraseRepsBy, List.eraseRepsBy.loop, List.eraseRepsBy.loop]
    cases same a b with
    | true => exact ih a kept
    | false =>
      show List.eraseRepsBy.loop same b list (a :: kept) = kept.reverse ++ List.eraseRepsBy.loop same b list [a]
      rw [ih, ih, List.reverse_cons, List.append_assoc]
      rfl

theorem eraseRepsBy_cons_cons (a b : α) (rest : List α) :
    (a :: b :: rest).eraseRepsBy same
      = if same a b then (a :: rest).eraseRepsBy same else a :: (b :: rest).eraseRepsBy same := by
  rw [List.eraseRepsBy, List.eraseRepsBy.loop]
  cases same a b with
  | true => rfl
  | false => exact eraseRepsBy_loop b rest [a]

/-- Induction over a list with the element kept last in front. -/
@[elab_as_elim]
theorem eraseRepsBy_induction (same : α → α → Bool) {motive : List α → Prop} (nil : motive [])
    (single : ∀ a, motive [a])
    (agree : ∀ a b rest, same a b = true → motive (a :: rest) → motive (a :: b :: rest))
    (differ : ∀ a b rest, ¬same a b = true → motive (b :: rest) → motive (a :: b :: rest)) (list : List α) :
    motive list := by
  cases list with
  | nil => exact nil
  | cons a rest =>
    induction rest generalizing a with
    | nil => exact single a
    | cons b rest ih =>
      by_cases h : same a b = true
      · exact agree a b rest h (ih a)
      · exact differ a b rest h (ih b)

theorem eraseRepsBy_sublist (list : List α) : (list.eraseRepsBy same).Sublist list := by
  induction list using eraseRepsBy_induction same with
  | nil => exact .slnil
  | single a => exact .refl [a]
  | agree a b rest h ih =>
    rw [eraseRepsBy_cons_cons, if_pos h]
    exact ih.trans (List.Sublist.cons_cons a (List.sublist_cons_self b rest))
  | differ a b rest h ih =>
    rw [eraseRepsBy_cons_cons, if_neg h]
    exact ih.cons_cons a

/-- In a sorted list the elements that agree are neighbours, so none of those that stay agree. -/
theorem eraseRepsBy_pairwise (htrans : ∀ a b c, le a b = true → le b c = true → le a c = true)
    (hsame : ∀ a b, le a b = true → (same a b = true ↔ le b a = true)) (list : List α)
    (h : list.Pairwise fun a b => le a b = true) :
    (list.eraseRepsBy same).Pairwise fun a b => le a b = true ∧ le b a = false := by
  induction list using eraseRepsBy_induction same with
  | nil => exact List.Pairwise.nil
  | single a => exact List.pairwise_singleton _ _
  | agree a b rest hab ih =>
    rw [eraseRepsBy_cons_cons, if_pos hab]
    exact ih (h.sublist (List.Sublist.cons_cons a (List.sublist_cons_self b rest)))
  | differ a b rest hab ih =>
    obtain ⟨ha, hrest⟩ := List.pairwise_cons.mp h
    obtain ⟨hb, -⟩ := List.pairwise_cons.mp hrest
    have hle := ha b List.mem_cons_self
    rw [eraseRepsBy_cons_cons, if_neg hab]
    refine List.pairwise_cons.mpr ⟨fun c hc => ?_, ih hrest⟩
    have hc := (eraseRepsBy_sublist (b :: rest)).subset hc
    refine ⟨ha c hc, Bool.eq_false_iff.mpr fun hca => hab ((hsame a b hle).mpr ?_)⟩
    -- `c` comes back to `a`, and `b` lies between them
    rcases List.mem_cons.mp hc with rfl | hc
    · exact hca
    · exact htrans b c a (hb c hc) hca

/-- Where only equal elements agree, none is lost. -/
theorem mem_eraseReps [BEq α] [LawfulBEq α] {a : α} (list : List α) : a ∈ list.eraseReps ↔ a ∈ list := by
  rw [List.eraseReps]
  induction list using eraseRepsBy_induction (fun b c : α => b == c) with
  | nil => rfl
  | single b => rfl
  | agree b c rest hbc ih =>
    rw [eraseRepsBy_cons_cons, if_pos hbc, ih, eq_of_beq hbc]
    simp
  | differ b c rest hbc ih => rw [eraseRepsBy_cons_cons, if_neg hbc, List.mem_cons, ih, ← List.mem_cons]

/-- Of the elements that agree, the first one is kept. -/
theorem find?_eraseRepsBy (hp : ∀ a b, same a b = true → p b = true → p a = true) (list : List α) :
    (list.eraseRepsBy same).find? p = list.find? p := by
  induction list using eraseRepsBy_induction same with
  | nil => rfl
  | single a => rfl
  | agree a b rest hab ih =>
    rw [eraseRepsBy_cons_cons, if_pos hab, ih]
    by_cases ha : p a = true
    · rw [List.find?_cons_of_pos ha, List.find?_cons_of_pos ha]
    · have hb : p b ≠ true := fun hb => ha (hp a b hab hb)
      rw [List.find?_cons_of_neg ha, List.find?_cons_of_neg ha, List.find?_cons_of_neg hb]
  | differ a b rest hab ih =>
    rw [eraseRepsBy_cons_cons, if_neg hab, List.find?_cons, ih, ← List.find?_cons]

theorem eraseRepsBy_forall₂ (hsame : ∀ {a a' b b'}, R a a' → R b b' → same a b = same a' b')
    (l : List α) :
    ∀ {l' : List α}, List.Forall₂ R l l' →
      List.Forall₂ R (l.eraseRepsBy same) (l'.eraseRepsBy same) := by
  induction l using eraseRepsBy_induction same with
  | nil =>
    intro l' h
    cases h
    exact .nil
  | single a =>
    intro l' h
    obtain ⟨a', _, ha, hnil, rfl⟩ := List.forall₂_cons_left_iff.mp h
    cases hnil
    exact .cons ha .nil
  | agree a b rest hab ih =>
    intro l' h
    cases h with
    | cons ha h =>
      cases h with
      | cons hb hrest =>
        rw [eraseRepsBy_cons_cons, eraseRepsBy_cons_cons, if_pos hab, if_pos (by rw [← hsame ha hb, hab])]
        exact ih (.cons ha hrest)
  | differ a b rest hab ih =>
    intro l' h
    cases h with
    | cons ha h =>
      cases h with
      | cons hb hrest =>
        rw [eraseRepsBy_cons_cons, eraseRepsBy_cons_cons, if_neg hab, if_neg (by rwa [← hsame ha hb])]
        exact .cons ha (ih (.cons hb hrest))

/-- **Sorted and without repeats**, by a comparison that takes for equal what agrees, a list ascends strictly. -/
theorem eraseRepsBy_sortBy_strict {cmp : α → α → Ordering} [Std.TransCmp cmp]
    (hle : ∀ a b, le a b = true ↔ (cmp a b).isLE = true)
    (hsame : ∀ a b, same a b = true ↔ cmp a b = .eq) (list : List α) :
    ((sortBy le list).eraseRepsBy same).Pairwise fun a b => cmp a b = .lt := by
  have hswap : ∀ a b, cmp b a = (cmp a b).swap := fun a b => Std.OrientedCmp.eq_swap
  have hagree : ∀ a b, le a b = true → (same a b = true ↔ le b a = true) := by
    intro a b hab
    rw [hle] at hab
    rw [hsame, hle, hswap a b]
    revert hab
    cases cmp a b <;> simp
  refine (eraseRepsBy_pairwise (le_trans_of_cmp hle) hagree _ (sortBy_ascends hle list)).imp ?_
  intro a b h
  obtain ⟨hab, hba⟩ := h
  rw [hle] at hab
  rw [← Bool.not_eq_true, hle, hswap a b] at hba
  revert hab hba
  cases cmp a b <;> simp

end Sorting

/-! ### First occurrences -/

section FirstOccurrences

variable {α β : Type} [BEq α] [LawfulBEq α] [BEq β] [LawfulBEq β]

/-- An element at the end of a list is a first occurrence if it is new. -/
theorem eraseDups_concat (list : List α) (a : α) :
    (list ++ [a]).eraseDups = if a ∈ list then list.eraseDups else list.eraseDups ++ [a] := by
  rw [List.eraseDups_append]
  by_cases ha : a ∈ list <;> simp [List.removeAll, ha, List.eraseDups_cons]

theorem nodup_eraseDups (list : List α) : list.eraseDups.Nodup := by
  induction list using List.reverseRecOn with
  | nil => exact List.nodup_nil
  | append_singleton list b ih =>
    rw [eraseDups_concat]
    split
    · exact ih
    · rename_i hb
      rw [← List.concat_eq_append, List.nodup_concat]
      exact ⟨mt List.mem_eraseDups.mp hb, ih⟩

/-- What is kept with an element at its end unless the element is there, is kept with its first occurrences. -/
theorem add_eraseDups {γ : Type} (list : List α) (a : α) (keep : List α → γ) :
    (if list.eraseDups.contains a then keep list.eraseDups else keep (list.eraseDups ++ [a]))
      = keep (list ++ [a]).eraseDups := by
  have hmem : list.eraseDups.contains a = true ↔ a ∈ list := List.contains_iff_mem.trans List.mem_eraseDups
  rw [eraseDups_concat, apply_ite keep]
  simp only [hmem]

/-- A longer list keeps the first occurrences, and their places. -/
theorem eraseDups_prefix_append (list more : List α) : list.eraseDups <+: (list ++ more).eraseDups :=
  ⟨_, List.eraseDups_append.symm⟩

theorem eraseDups_map {f : α → β} {list : List α} (hf : ∀ a ∈ list, ∀ b ∈ list, f a = f b → a = b) :
    (list.map f).eraseDups = list.eraseDups.map f := by
  induction list using List.reverseRecOn with
  | nil => rfl
  | append_singleton list b ih =>
    have hlist : ∀ a ∈ list, a ∈ list ++ [b] := fun a ha => List.mem_append_left _ ha
    have hmem : f b ∈ list.map f ↔ b ∈ list := by
      refine ⟨fun h => ?_, List.mem_map_of_mem⟩
      obtain ⟨a, ha, hab⟩ := List.mem_map.mp h
      exact hf a (hlist a ha) b (by simp) hab ▸ ha
    rw [List.map_append, List.map_singleton, eraseDups_concat, eraseDups_concat,
      ih fun a ha c hc => hf a (hlist a ha) c (hlist c hc)]
    by_cases hb : b ∈ list
    · rw [if_pos hb, if_pos (hmem.mpr hb)]
    · rw [if_neg hb, if_neg (mt hmem.mp hb), List.map_append, List.map_singleton]

/-- The place of an element of a list in a list that starts with it. -/
theorem idxOf_of_starts {list all : List α} (h : list <+: all) {a : α} (ha : a ∈ list) :
    all.idxOf a = list.idxOf a := by
  obtain ⟨more, rfl⟩ := h
  exact List.idxOf_append_of_mem ha

/-- Where an element is found in a list. -/
theorem findIdx?_beq_eq (list : List α) (a : α) :
    list.findIdx? (· == a) = if a ∈ list then some (list.idxOf a) else none := by
  split
  · rename_i ha
    rw [List.findIdx?_eq_some_iff_findIdx_eq]
    exact ⟨List.idxOf_lt_length_of_mem ha, rfl⟩
  · rename_i ha
    rw [List.findIdx?_eq_none_iff]
    intro x hx
    refine beq_false_of_ne ?_
    intro heq
    exact ha (heq ▸ hx)

end FirstOccurrences

end CodeAtlas
