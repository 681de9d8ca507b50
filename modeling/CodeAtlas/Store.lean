import CodeAtlas.Index

/-!
# The index store

The last index that was published for each root. A rescan builds the new index before it takes the place
of the old one, and a rescan that fails changes nothing.

* `Store.publish`, `Store.get?`, `Store.discard`: the index of a root.
* `Store.roots`: the roots with an index, sorted.
* `FileSystem.storeKey`: the key of a root, which follows what the path leads to.
-/

namespace CodeAtlas

namespace Path

/-- The rank of a component among those of other kinds. -/
def Component.rank : Component → Nat
  | root => 0
  | current => 1
  | parent => 2
  | name _ => 3

/-- Whether a component comes before another, or is equal to it. -/
def Component.inOrder : Component → Component → Bool
  | name a, name b => a ≤ b
  | a, b => a.rank ≤ b.rank

/-- Whether a path comes before another, or is equal to it, component by component. -/
def inOrder : List Component → List Component → Bool
  | [], _ => true
  | _ :: _, [] => false
  | a :: as, b :: bs => if a == b then inOrder as bs else a.inOrder b

end Path

/-- The key of a root: the components of its path. -/
abbrev RootKey := List Path.Component

/-- The key under which an outcome is kept. -/
def ScanOutcome.key (outcome : ScanOutcome) : RootKey :=
  Path.components outcome.manifest.root

/-- The indexes that are kept, by the key of their root. -/
structure Store where
  /-- How roots are scanned. -/
  config : Config := {}
  entries : List (RootKey × ScanOutcome) := []

namespace Store

/-- The index with a key. -/
def find? (store : Store) (key : RootKey) : Option ScanOutcome :=
  store.entries.lookup key

/-- The store without the index with a key. -/
def remove (store : Store) (key : RootKey) : Store :=
  { store with entries := store.entries.filter (·.1 != key) }

/-- The store with an index in the place of the one with the same root. -/
def publish (store : Store) (outcome : ScanOutcome) : Store :=
  { store with entries := (outcome.key, outcome) :: (store.remove outcome.key).entries }

/-- The line of the log about the publication of an index. -/
def publishLine (store : Store) (outcome : ScanOutcome) : LogLine :=
  let replaced := if (store.find? outcome.key).isSome then ", replaced" else ""
  .info s!"Published index for {outcome.manifest.root} ({outcome.table.size} symbols{replaced})"

/-- The roots with an index, sorted. -/
def roots (store : Store) : List RootKey :=
  sortBy Path.inOrder (store.entries.map (·.1))

end Store

namespace FileSystem

/-- The key of a root: that of the directory it leads to, or of the path as it is. -/
def storeKey (fs : FileSystem) (root : String) : RootKey :=
  match fs.canonicalRoot root with
  | .ok path => Path.components path
  | .error _ => Path.components root

end FileSystem

namespace Store

/-- The index of a root. -/
def get? (store : Store) (fs : FileSystem) (root : String) : Option ScanOutcome :=
  store.find? (fs.storeKey root)

/-- The store without the index of a root, and whether there was one. -/
def discard (store : Store) (fs : FileSystem) (root : String) : Bool × Store :=
  let key := fs.storeKey root
  ((store.find? key).isSome, store.remove key)

/-- Scans a root and publishes what was found. -/
def rescan (store : Store) (fs : FileSystem) (time root : String) :
    Except RootError (ScanOutcome × Store) := do
  let scanned ← fs.scan store.config time root
  return (scanned.outcome, store.publish scanned.outcome)

end Store

end CodeAtlas
