import Mathlib.Data.List.Flatten
import Mathlib.Data.List.Perm.Basic
import TrieOverlay.Partition

/-!
# The levels of a batch make up the batch

`atLevel` is the bucket of one level.  The last level has the owned entries (`splitOwned_eq`), and
the buckets before it hold the others, each entry once (`flatMap_atLevel_perm`).
-/

namespace TrieOverlay

variable {path : Key} {batch : List Entry}

/-- The entries of a batch at a level. -/
def atLevel (path : Key) (level : Nat) (batch : List Entry) : List Entry :=
  batch.filter fun e => path.levelOf e.key == level

/-- The entries of a batch that a peer is responsible for. -/
def ownedBy (path : Key) (batch : List Entry) : List Entry :=
  batch.filter fun e => path.owns e.key

/-- The entries of a batch that a peer is not responsible for. -/
def foreignTo (path : Key) (batch : List Entry) : List Entry :=
  batch.filter fun e => !path.owns e.key

theorem byLevel_eq_map (path : Key) (batch : List Entry) :
    byLevel path batch = (List.range (path.length + 1)).map fun i => atLevel path i batch := by
  refine List.ext_getElem? fun i => ?_
  by_cases hi : i ≤ path.length
  · rw [getElem?_byLevel path batch hi, List.getElem?_map, List.getElem?_range (by omega)]
    rfl
  · rw [List.getElem?_eq_none (by simp; omega), List.getElem?_eq_none (by simp; omega)]

theorem splitOwned_eq (path : Key) (batch : List Entry) :
    splitOwned path batch =
      ((List.range path.length).map fun i => atLevel path i batch, ownedBy path batch) := by
  rw [splitOwned, byLevel_eq_map, List.range_succ, List.map_append, List.map_singleton,
    List.dropLast_concat, List.getLastD_concat]
  rfl

/-- What has a part for each level and one more are the parts of the levels and the owned part. -/
theorem exists_levels_and_owned {α : Type} {parts : List α} {n : Nat}
    (h : parts.length = n + 1) :
    ∃ levels owned, parts = levels ++ [owned] ∧ levels.length = n := by
  rcases List.eq_nil_or_concat' parts with rfl | ⟨levels, owned, rfl⟩
  · simp at h
  · exact ⟨levels, owned, rfl, by simpa using h⟩

/-- An entry is owned exactly if its level is no level of the path. -/
theorem owns_eq_false_iff (path key : Key) :
    path.owns key = false ↔ path.levelOf key < path.length := by
  rw [Key.owns, beq_eq_false_iff_ne]
  have := Key.levelOf_le path key
  omega

theorem commonPrefixLength_comm (as bs : List Bool) :
    Key.commonPrefixLength as bs = Key.commonPrefixLength bs as := by
  induction as generalizing bs with
  | nil => cases bs <;> rfl
  | cons a as ih =>
    cases bs with
    | nil => rfl
    | cons b bs => simp only [Key.commonPrefixLength, ih, eq_comm]

theorem commonPrefixLength_eq_length_iff (as bs : List Bool) :
    Key.commonPrefixLength as bs = as.length ↔ as.isPrefixOf bs = true := by
  induction as generalizing bs with
  | nil => simp [Key.commonPrefixLength]
  | cons a as ih =>
    cases bs with
    | nil => simp [Key.commonPrefixLength]
    | cons b bs =>
      rw [Key.commonPrefixLength, List.isPrefixOf_cons_cons, List.length_cons]
      split <;> simp [*]

/-- A peer is responsible for exactly the keys that are compatible with its path. -/
theorem owns_eq_isCompatibleWith (path key : Key) :
    path.owns key = key.isCompatibleWith path := by
  have hpath := commonPrefixLength_eq_length_iff path.bits key.bits
  have hkey := commonPrefixLength_eq_length_iff key.bits path.bits
  rw [commonPrefixLength_comm] at hkey
  -- the last level has the keys that extend the path and those that the path extends
  have hle := Key.commonLength_le_left path key
  rw [Bool.eq_iff_iff, Key.owns, beq_iff_eq, Key.levelOf, Key.isCompatibleWith, Bool.or_eq_true]
  rw [Key.isPrefixOf, Key.isPrefixOf, ← hpath, ← hkey]
  change _ ↔ path.commonLength key = key.length ∨ path.commonLength key = path.length
  split <;> omega

theorem count_flatMap_atLevel (path : Key) (batch : List Entry) (e : Entry) (n : Nat) :
    ((List.range n).flatMap fun i => atLevel path i batch).count e =
      if path.levelOf e.key < n then batch.count e else 0 := by
  induction n with
  | zero => rfl
  | succ n ih =>
    have hlevel : (atLevel path n batch).count e =
        if path.levelOf e.key = n then batch.count e else 0 := by
      split
      · exact List.count_filter (by simpa using ‹_›)
      · rw [List.count_eq_zero]
        simp [atLevel, *]
    rw [List.range_succ, List.flatMap_append, List.count_append, ih, List.flatMap_singleton, hlevel]
    split <;> split <;> split <;> omega

/-- The levels of a path hold what the peer is not responsible for. -/
theorem flatMap_atLevel_perm (path : Key) (batch : List Entry) :
    ((List.range path.length).flatMap fun i => atLevel path i batch).Perm
      (foreignTo path batch) := by
  rw [List.perm_iff_count]
  intro e
  rw [count_flatMap_atLevel, foreignTo]
  split
  · rw [List.count_filter (by simpa [owns_eq_false_iff] using ‹_›)]
  · rw [eq_comm, List.count_eq_zero]
    simp [owns_eq_false_iff, *]

theorem mem_foreignTo {e : Entry} :
    e ∈ foreignTo path batch ↔ e ∈ batch ∧ path.owns e.key = false := by
  simp [foreignTo]

theorem mem_ownedBy {e : Entry} :
    e ∈ ownedBy path batch ↔ e ∈ batch ∧ path.owns e.key = true := by
  simp [ownedBy]

end TrieOverlay
