import Std.Data.ExtTreeMap

/-!
# Sorted sequences and finite maps

* `sortBy`: a stable sort; equal elements keep their order.
* `Dict`: finite maps from strings, listed in the order of their keys.
-/

namespace CodeAtlas

/-- Inserts an element before the first one that it does not follow. -/
def insertBy {α : Type} (le : α → α → Bool) (a : α) : List α → List α
  | [] => [a]
  | b :: rest => if le a b then a :: b :: rest else b :: insertBy le a rest

/-- Sorts a list; elements that are not apart in the order keep their places. -/
def sortBy {α : Type} (le : α → α → Bool) (list : List α) : List α :=
  list.foldr (insertBy le) []

/-- A finite map from strings. -/
abbrev Dict (β : Type) := Std.ExtTreeMap String β

end CodeAtlas
