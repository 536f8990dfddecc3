import TrieOverlay.Entry

/-!
# Levels of a batch against a path

A peer is responsible for the subtree of its path.  The entries of a batch that lie elsewhere are
told apart by their *level*: the number of leading bits that key and path share.  Entries at level
`i` go to the sibling subtree that leaves the path at bit `i`; entries whose key is compatible with
the path are *owned* and get the level `path.length`.

`byLevel` sorts a batch into one bucket per level and one for the owned entries, in the order of
the batch.
-/

namespace TrieOverlay

namespace Key

/-- The level of a key against a path. -/
def levelOf (path key : Key) : Nat :=
  let common := path.commonLength key
  if common = path.length ∨ common = key.length then path.length else common

/-- Whether the peer at `path` is responsible for `key`. -/
def owns (path key : Key) : Bool :=
  path.levelOf key == path.length

/-- A level is at most the length of the path. -/
theorem levelOf_le (path key : Key) : path.levelOf key ≤ path.length := by
  simp only [levelOf]
  split
  · exact Nat.le_refl _
  · exact commonLength_le_left path key

end Key

/-- The buckets of a batch: the levels of the path in order, then the owned entries. -/
def byLevel (path : Key) (batch : List Entry) : List (List Entry) :=
  let levelled := batch.map fun e => (path.levelOf e.key, e)
  (List.range (path.length + 1)).map fun level =>
    (levelled.filter (·.1 == level)).map (·.2)

/-- There is one bucket per level and one for the owned entries. -/
@[simp] theorem length_byLevel (path : Key) (batch : List Entry) :
    (byLevel path batch).length = path.length + 1 := by
  simp [byLevel]

/-- A bucket holds the entries at its level, in the order of the batch. -/
theorem getElem?_byLevel (path : Key) (batch : List Entry) {level : Nat}
    (h : level ≤ path.length) :
    (byLevel path batch)[level]? = some (batch.filter fun e => path.levelOf e.key == level) := by
  have hl : level < path.length + 1 := Nat.lt_succ_of_le h
  simp only [byLevel, List.getElem?_map, List.getElem?_range hl, Option.map_some,
    List.filter_map, List.map_map]
  congr 1
  exact List.map_id _

/-- The buckets of a batch without the owned ones, and the owned ones. -/
def splitOwned (path : Key) (batch : List Entry) : List (List Entry) × List Entry :=
  let levels := byLevel path batch
  (levels.dropLast, levels.getLastD [])

end TrieOverlay
