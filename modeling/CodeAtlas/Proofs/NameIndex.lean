import CodeAtlas.SymbolTable
import Mathlib.Data.List.Induction

/-!
# The index of names

The table answers questions about a name from an index that is filled symbol by symbol. This file says
what the filled index holds, in terms of the symbols alone:

* `indexFrom_getD`, `mem_indexFrom`: one pass appends, under each key, the positions of the symbols with
  that key, and opens no other key;
* `SymbolTable.positions_eq_filter_range`: the positions of a name are the places of the list at which a
  symbol of that name stands, ascending;
* `SymbolTable.containsName_iff`: the index knows exactly the names of the symbols.
-/

namespace CodeAtlas

/-! ### Filling the index -/

/-- The positions, counted from `start`, of the symbols with the key `k`. -/
def keyedFrom (key : Symbol → String) (k : String) (start : Nat) (symbols : List Symbol) : List Nat :=
  ((symbols.zipIdx start).filter fun p => key p.1 == k).map Prod.snd

theorem keyedFrom_cons (key : Symbol → String) (k : String) (start : Nat) (s : Symbol)
    (symbols : List Symbol) :
    keyedFrom key k start (s :: symbols)
      = (if key s = k then [start] else []) ++ keyedFrom key k (start + 1) symbols := by
  by_cases h : key s = k
  · simp [keyedFrom, List.zipIdx_cons, h]
  · simp [keyedFrom, List.zipIdx_cons, h]

/-- One pass over the symbols appends their positions to what the index held before. -/
theorem indexFrom_getD (key : Symbol → String) (k : String) (symbols : List Symbol) :
    ∀ (start : Nat) (index : Dict (List Nat)),
      (indexFrom key start index symbols).getD k []
        = index.getD k [] ++ keyedFrom key k start symbols := by
  induction symbols with
  | nil =>
    intro start index
    simp [indexFrom, keyedFrom]
  | cons s symbols ih =>
    intro start index
    rw [indexFrom, ih, keyedFrom_cons, Std.ExtTreeMap.getD_insert]
    by_cases h : key s = k
    · simp [h, List.append_assoc]
    · simp [h]

theorem mem_indexFrom (key : Symbol → String) (k : String) (symbols : List Symbol) :
    ∀ (start : Nat) (index : Dict (List Nat)),
      k ∈ indexFrom key start index symbols ↔ k ∈ index ∨ ∃ s ∈ symbols, key s = k := by
  induction symbols with
  | nil =>
    intro start index
    simp [indexFrom]
  | cons s symbols ih =>
    intro start index
    rw [indexFrom, ih, Std.ExtTreeMap.mem_insert, Std.LawfulEqCmp.compare_eq_iff_eq]
    simp only [List.mem_cons, exists_eq_or_imp]
    rw [or_assoc, or_left_comm]

/-- Counted from zero, the positions are places of the list. -/
theorem keyedFrom_zero (key : Symbol → String) (k : String) (symbols : List Symbol) :
    keyedFrom key k 0 symbols
      = (List.range symbols.length).filter fun i => symbols[i]?.any fun s => key s == k := by
  -- the list grows at its end, where the new place is the old length
  induction symbols using List.reverseRecOn with
  | nil => rfl
  | append_singleton symbols s ih =>
    have hold : (List.range symbols.length).filter
          (fun i => (symbols ++ [s])[i]?.any fun s => key s == k)
        = (List.range symbols.length).filter fun i => symbols[i]?.any fun s => key s == k := by
      apply List.filter_congr
      intro i hi
      rw [List.getElem?_append_left (List.mem_range.mp hi)]
    rw [List.length_append, List.length_singleton, List.range_succ, List.filter_append, hold, ← ih]
    by_cases h : key s = k
    · simp [keyedFrom, List.zipIdx_append, h]
    · simp [keyedFrom, List.zipIdx_append, h]

/-! ### What the table knows of a name -/

namespace SymbolTable

variable (table : SymbolTable)

/-- The positions of a name are the places at which a symbol of that name stands, ascending. -/
theorem positions_eq_filter_range (name : String) :
    table.positions name
      = (List.range table.size).filter fun i => table.symbols[i]?.any fun s => s.name == name := by
  rw [positions, table.byName_eq, indexBy, indexFrom_getD, Std.ExtTreeMap.getD_empty, List.nil_append,
    keyedFrom_zero]
  rfl

theorem mem_positions {name : String} {i : Nat} :
    i ∈ table.positions name ↔ ∃ s, table.symbols[i]? = some s ∧ s.name = name := by
  rw [positions_eq_filter_range, List.mem_filter, List.mem_range, Option.any_eq_true]
  constructor
  · rintro ⟨-, s, hs, hname⟩
    exact ⟨s, hs, by simpa using hname⟩
  · rintro ⟨s, hs, hname⟩
    obtain ⟨hi, -⟩ := List.getElem?_eq_some_iff.mp hs
    exact ⟨hi, s, hs, by simpa using hname⟩

/-- The index knows a name exactly when a symbol has it. -/
theorem containsName_iff (name : String) :
    table.containsName name = true ↔ ∃ s ∈ table.symbols, s.name = name := by
  rw [containsName, table.byName_eq, indexBy, Std.ExtTreeMap.contains_iff_mem, mem_indexFrom]
  simp

/-- A known name has a position. -/
theorem positions_ne_nil {name : String} (h : table.containsName name = true) :
    table.positions name ≠ [] := by
  obtain ⟨s, hs, hname⟩ := (table.containsName_iff name).mp h
  obtain ⟨i, hi⟩ := List.getElem?_of_mem hs
  exact List.ne_nil_of_mem (table.mem_positions.mpr ⟨s, hi, hname⟩)

end SymbolTable

end CodeAtlas
