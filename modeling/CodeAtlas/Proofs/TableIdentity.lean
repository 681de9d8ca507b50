import CodeAtlas.Proofs.TableOrder

/-!
# What a table holds

A table is filled from fragments that may repeat sources, names and whole identities. Sorting keeps the symbols of
one identity in the order of the fragments and makes them neighbours, and of neighbours the first one stays. So the
table holds the first symbol of every identity and nothing else, and its indexes lead to all of them.

* `Symbol.Precedes`: the order of the table, by file, first line and name;
* `IndexesBy`: what an index of some symbols by a key of theirs holds;
* `SymbolTable.get?_eq_some_iff`, `SymbolTable.find?_ofFragments`: what an identity leads to;
* `SymbolTable.ofFragments_represents`: all of it together, for any fragments.
-/

namespace CodeAtlas

/-! ### The order by file, line and name -/

namespace Symbol

/-- A symbol stands on an earlier line than another, or on its line under an earlier name. -/
def PrecedesInFile (a b : Symbol) : Prop :=
  a.startLine < b.startLine ∨ a.startLine = b.startLine ∧ a.name < b.name

/-- A symbol comes before another: in an earlier file, or earlier in its file. -/
def Precedes (a b : Symbol) : Prop :=
  a.file < b.file ∨ a.file = b.file ∧ a.PrecedesInFile b

end Symbol

theorem compare_string_eq_lt {a b : String} : compare a b = .lt ↔ a < b :=
  compareOfLessAndEq_eq_lt

namespace SymbolTable

theorem keyOrder_eq_lt_iff (a b : Symbol) : keyOrder a b = .lt ↔ a.Precedes b := by
  rw [keyOrder_eq, Ordering.then_eq_lt, Ordering.then_eq_lt, compare_string_eq_lt, compare_string_eq_lt,
    Nat.compare_eq_lt, Nat.compare_eq_eq, Std.compare_eq_iff_eq]
  rfl

end SymbolTable

/-! ### Indexes -/

/-- An index of some symbols by a key of theirs: it knows exactly the keys that occur, and under each key it lists
the places of all symbols with that key, ascending. -/
structure IndexesBy (key : Symbol → String) (symbols : List Symbol) (index : Dict (List Nat)) : Prop where
  known : ∀ k, k ∈ index ↔ ∃ s ∈ symbols, key s = k
  listed : ∀ k places, index[k]? = some places →
    places.Pairwise (· < ·) ∧ ∀ i, i ∈ places ↔ ∃ s, symbols[i]? = some s ∧ key s = k

theorem indexBy_indexes (key : Symbol → String) (symbols : List Symbol) :
    IndexesBy key symbols (indexBy key symbols) := by
  refine ⟨fun k => ?_, fun k places hplaces => ?_⟩
  · simp [indexBy, mem_indexFrom]
  · have heq : places
        = (List.range symbols.length).filter fun i => symbols[i]?.any fun s => key s == k := by
      have hgetD := indexFrom_getD key k symbols 0 ∅
      rw [Std.ExtTreeMap.getD_empty, List.nil_append, keyedFrom_zero, Std.ExtTreeMap.getD_eq_getD_getElem?]
        at hgetD
      rw [indexBy] at hplaces
      rwa [hplaces, Option.getD_some] at hgetD
    rw [heq]
    refine ⟨List.pairwise_lt_range.filter _, fun i => ?_⟩
    rw [List.mem_filter, List.mem_range, Option.any_eq_true]
    constructor
    · intro h
      obtain ⟨-, s, hs, hkey⟩ := h
      exact ⟨s, hs, by simpa using hkey⟩
    · intro h
      obtain ⟨s, hs, hkey⟩ := h
      obtain ⟨hi, -⟩ := List.getElem?_eq_some_iff.mp hs
      exact ⟨hi, s, hs, by simpa using hkey⟩

/-! ### What an identity leads to -/

namespace SymbolTable

variable {fragments : List Fragment}

theorem get?_eq_some_iff {id : SymbolId} {s : Symbol} :
    (ofFragments fragments).get? id = some s ↔ s ∈ (ofFragments fragments).symbols ∧ s.id = id := by
  constructor
  · intro h
    obtain ⟨i, hi, hs⟩ := Option.bind_eq_some_iff.mp h
    refine ⟨List.mem_of_getElem? hs, ?_⟩
    have his := List.find?_some hi
    rw [hs] at his
    exact (s.is_iff id).mp his
  · intro h
    obtain ⟨hs, rfl⟩ := h
    obtain ⟨i, hi⟩ := List.getElem?_of_mem hs
    rw [get?, positionOf?_ofFragments hi]
    exact hi

theorem eq_of_id_eq {s t : Symbol} (hs : s ∈ (ofFragments fragments).symbols)
    (ht : t ∈ (ofFragments fragments).symbols) (hid : s.id = t.id) : s = t := by
  have hfirst := get?_eq_some_iff.mpr ⟨hs, hid⟩
  have hsecond := get?_eq_some_iff.mpr ⟨ht, rfl⟩
  exact Option.some.inj (hfirst.symm.trans hsecond)

/-- **The first symbol of an identity**, in the order of the fragments, is the one that the table holds. -/
theorem find?_ofFragments (fragments : List Fragment) (id : SymbolId) :
    (ofFragments fragments).symbols.find? (·.is id)
      = (fragments.flatMap Fragment.symbols).find? (·.is id) := by
  have hsort : ∀ a b : Symbol, a.is id = true → b.is id = true → inOrder a b = true := by
    intro a b ha hb
    rw [Symbol.is_iff] at ha hb
    rw [inOrder_iff, (keyOrder_eq_iff a b).mpr (ha.trans hb.symm)]
    rfl
  have hdrop : ∀ a b : Symbol, sameId a b = true → b.is id = true → a.is id = true := by
    intro a b hab hb
    rw [sameId_iff] at hab
    rw [Symbol.is_iff] at hb ⊢
    exact hab.trans hb
  exact (find?_eraseRepsBy hdrop _).trans (find?_sortBy hsort _)

theorem find?_flatMap_eq_some_iff {s : Symbol} :
    (fragments.flatMap Fragment.symbols).find? (·.is s.id) = some s
      ↔ s ∈ (ofFragments fragments).symbols := by
  rw [← find?_ofFragments]
  constructor
  · intro h
    exact List.mem_of_find?_eq_some h
  · intro hs
    cases hfind : (ofFragments fragments).symbols.find? (·.is s.id) with
    | none =>
      have hnot := List.find?_eq_none.mp hfind s hs
      exact absurd ((s.is_iff s.id).mpr rfl) hnot
    | some t =>
      have his := List.find?_some hfind
      rw [eq_of_id_eq (List.mem_of_find?_eq_some hfind) hs ((t.is_iff s.id).mp his)]

/-- No identity is lost: a symbol of a fragment has one of its identity in the table. -/
theorem exists_mem_ofFragments {s : Symbol} (hs : s ∈ fragments.flatMap Fragment.symbols) :
    ∃ t ∈ (ofFragments fragments).symbols, t.id = s.id := by
  have hsome : ((fragments.flatMap Fragment.symbols).find? (·.is s.id)).isSome = true :=
    List.find?_isSome.mpr ⟨s, hs, (s.is_iff s.id).mpr rfl⟩
  obtain ⟨t, ht⟩ := Option.isSome_iff_exists.mp hsome
  have his := List.find?_some ht
  have hid := (t.is_iff s.id).mp his
  rw [← hid] at ht
  exact ⟨t, find?_flatMap_eq_some_iff.mp ht, hid⟩

/-- **What a table represents.** For any fragments, the symbols of their table ascend strictly by file, first line
and name. The index of names knows exactly the names that occur, with the places of each in ascending order, and so
does the index of files. An identity leads to a symbol exactly if that is the only symbol of the table which has it.
No identity of a fragment is lost, and every symbol of the table is the first with its identity in the order of the
fragments. -/
theorem ofFragments_represents (fragments : List Fragment) :
    (ofFragments fragments).symbols.Pairwise Symbol.Precedes ∧
    IndexesBy Symbol.name (ofFragments fragments).symbols (ofFragments fragments).byName ∧
    IndexesBy Symbol.file (ofFragments fragments).symbols (ofFragments fragments).byFile ∧
    (∀ id s, (ofFragments fragments).get? id = some s
      ↔ s ∈ (ofFragments fragments).symbols ∧ s.id = id ∧
        ∀ t ∈ (ofFragments fragments).symbols, t.id = id → t = s) ∧
    (∀ f ∈ fragments, ∀ s ∈ f.symbols, ∃ t ∈ (ofFragments fragments).symbols, t.id = s.id) ∧
    ∀ t ∈ (ofFragments fragments).symbols,
      (fragments.flatMap Fragment.symbols).find? (fun u => u.id = t.id) = some t := by
  refine ⟨?_, indexBy_indexes Symbol.name _, indexBy_indexes Symbol.file _, ?_, ?_, ?_⟩
  · exact (ofFragments_pairwise fragments).imp fun {a b} hab => (keyOrder_eq_lt_iff a b).mp hab
  · intro id s
    rw [get?_eq_some_iff]
    constructor
    · intro h
      obtain ⟨hs, hid⟩ := h
      exact ⟨hs, hid, fun t ht htid => eq_of_id_eq ht hs (htid.trans hid.symm)⟩
    · intro h
      exact ⟨h.1, h.2.1⟩
  · intro f hf s hs
    exact exists_mem_ofFragments (List.mem_flatMap.mpr ⟨f, hf, hs⟩)
  · intro t ht
    have hfind := find?_flatMap_eq_some_iff.mpr ht
    have hsame : (fun u : Symbol => decide (u.id = t.id)) = (·.is t.id) := by
      funext u
      rw [Bool.eq_iff_iff, decide_eq_true_iff, u.is_iff]
    rw [hsame]
    exact hfind

/-- A function of one identity, with the given body. -/
def repeatedSymbol (body : String) : Symbol :=
  ⟨"f", .function, "b.c", 1, 1, "", body⟩

/-- Two fragments of one source which both have a function of one identity, with other symbols around it. -/
def repeatedFragments : List Fragment :=
  [⟨.ofText "a.c" .c [], [⟨"f", .function, "b.c", 3, 4, "", ""⟩, repeatedSymbol "first"], [], 0⟩,
    ⟨.ofText "a.c" .c [], [⟨"g", .function, "a.c", 2, 2, "", ""⟩, repeatedSymbol "second"], [], 0⟩]

/-- The second function is not in the table, and its identity leads to the first. -/
theorem repeatedFragments_represents :
    repeatedSymbol "second" ∉ (ofFragments repeatedFragments).symbols ∧
    (∃ t ∈ (ofFragments repeatedFragments).symbols, t.id = (repeatedSymbol "second").id) ∧
    (ofFragments repeatedFragments).byName["f"]? = some [1, 2] ∧
    (∀ i, i ∈ [1, 2] ↔ ∃ s, (ofFragments repeatedFragments).symbols[i]? = some s ∧ s.name = "f") ∧
    (ofFragments repeatedFragments).get? ⟨"f", "b.c", 1⟩ = some (repeatedSymbol "first") := by
  have hsymbols : (ofFragments repeatedFragments).symbols
      = [⟨"g", .function, "a.c", 2, 2, "", ""⟩, repeatedSymbol "first", ⟨"f", .function, "b.c", 3, 4, "", ""⟩] := by
    decide +kernel
  have hplaces : (ofFragments repeatedFragments).byName["f"]? = some [1, 2] := by
    rw [(ofFragments repeatedFragments).byName_eq, hsymbols]
    decide +kernel
  obtain ⟨-, hnames, -, hget, hkept, -⟩ := ofFragments_represents repeatedFragments
  refine ⟨by rw [hsymbols]; decide, ?_, hplaces, (hnames.listed "f" [1, 2] hplaces).2, ?_⟩
  · exact hkept _ (List.mem_cons_of_mem _ List.mem_cons_self) (repeatedSymbol "second") (by decide)
  · rw [hget, hsymbols]
    decide

end SymbolTable

end CodeAtlas
