import TrieOverlay.Proofs.Routing.Filing
import TrieOverlay.Store

/-!
# Who is responsible for a key

A path divides the keys into those that are compatible with it and the sibling subtrees at its
levels.  That boundary is asked for in several ways: by the level of a key, by the level being the
last one, by prefixes in the store, and by the routing table.

* `Key.Leaves`: a key lies in the sibling subtree at a level.  `Key.leaves_iff` says which one that
  is, and that there is none for a compatible key.
* `Store.Rows.foreignTo_eq`: the store picks out the rows with a key that is not owned.
* `RoutingTable.resolve_eq_here_iff`: the local peer takes care of what it owns.
* `dealAll_eq_byLevel`: putting the entries one after the other into the buckets of their levels
  never misses a bucket and ends with the entries level by level.
-/

namespace TrieOverlay

variable {path key : Key} {level : Nat}

namespace Key

/-- A key lies in the sibling subtree that leaves a path at a level. -/
def Leaves (path : Key) (level : Nat) (key : Key) : Prop :=
  ∃ branch, path.branchAt? level = some branch ∧ branch.isPrefixOf key = true

theorem levelOf_eq_length_iff (path key : Key) :
    path.levelOf key = path.length ↔ key.isCompatibleWith path = true := by
  rw [← owns_eq_isCompatibleWith, owns, beq_iff_eq]

/-- Two keys that part are not compatible: neither is on the way to the other. -/
theorem PartAt.levelOf (h : PartAt path key level) :
    path.levelOf key = level ∧ level < path.length := by
  obtain ⟨hcommon, hpath, hkey⟩ := h
  refine ⟨?_, hpath⟩
  rw [Key.levelOf, hcommon]
  exact if_neg (by omega)

/-- Only a key that is not compatible with a path lies in a sibling subtree, and in one only. -/
theorem leaves_iff (path key : Key) (level : Nat) :
    path.Leaves level key ↔ key.isCompatibleWith path = false ∧ level = path.levelOf key := by
  rw [Leaves, exists_branch_isPrefixOf_iff, ← owns_eq_isCompatibleWith]
  constructor
  · intro h
    obtain ⟨hlevel, hlt⟩ := h.levelOf
    exact ⟨(owns_eq_false_iff path key).2 (hlevel.symm ▸ hlt), hlevel.symm⟩
  · rintro ⟨howns, rfl⟩
    exact partAt_of_not_owns howns

/-- A key is compatible with a path, or it lies in exactly one of the sibling subtrees. -/
theorem compatible_xor_leaves (path key : Key) :
    Xor (key.isCompatibleWith path = true)
      (∃! level, level < path.length ∧ path.Leaves level key) := by
  cases hcompatible : key.isCompatibleWith path with
  | true =>
    refine Or.inl ⟨rfl, ?_⟩
    rintro ⟨level, ⟨-, hleaves⟩, -⟩
    have := ((leaves_iff path key level).1 hleaves).1
    rw [hcompatible] at this
    cases this
  | false =>
    have hlt : path.levelOf key < path.length := by
      rw [← owns_eq_false_iff, owns_eq_isCompatibleWith, hcompatible]
    refine Or.inr ⟨⟨path.levelOf key, ⟨hlt, ?_⟩, ?_⟩, Bool.false_ne_true⟩
    · exact (leaves_iff path key _).2 ⟨hcompatible, rfl⟩
    · rintro level ⟨-, hleaves⟩
      exact ((leaves_iff path key level).1 hleaves).2

end Key

/-! ### The store -/

/-- The store picks out what a peer is not responsible for, in the order of the store. -/
theorem Store.Rows.foreignTo_eq (s : Store.Rows) (path : Key) :
    s.foreignTo path = s.entries.filter fun e => !path.owns e.key := by
  rw [foreignTo, entries, List.filter_map]
  refine congrArg (List.map _) (List.filter_congr fun row _ => ?_)
  obtain ⟨place, row⟩ := row
  exact congrArg (!·) (owns_eq_isCompatibleWith path place.key).symm

/-! ### The routing table -/

namespace RoutingTable

variable {t : RoutingTable} {self : LocalPeer} {choose : List Resolution → Option Resolution}

theorem resolutions_of_owns (h : self.path.owns key = true) (hroot : key ≠ .root) :
    t.resolutions self key = [.here] := by
  rw [resolutions, Key.isRoot_eq_false hroot, if_neg Bool.false_ne_true]
  refine if_pos ?_
  rw [Key.owns, beq_iff_eq, Key.levelOf] at h
  by_contra hnot
  rw [if_neg hnot] at h
  exact hnot (Or.inl h)

theorem resolve_eq_here_iff (hchoose : IsChoice choose) (hroot : key ≠ .root) :
    t.resolve self choose key = .here ↔ self.path.owns key = true := by
  have hmem : t.resolve self choose key ∈ t.resolutions self key := resolve_mem_resolutions hchoose
  cases howns : self.path.owns key with
  | true =>
    rw [resolutions_of_owns howns hroot, List.mem_singleton] at hmem
    exact iff_of_true hmem rfl
  | false =>
    refine iff_of_false (fun hhere => ?_) Bool.false_ne_true
    rw [hhere, resolutions_of_not_owns t howns] at hmem
    split at hmem <;> simp at hmem

theorem resolve_of_not_owns (t : RoutingTable) (hchoose : IsChoice choose)
    (h : self.path.owns key = false) :
    (t.atLevel (self.path.levelOf key) = [] ∧ t.resolve self choose key = .unreachable) ∨
      ∃ p ∈ t.atLevel (self.path.levelOf key), t.resolve self choose key = .remote p := by
  have hmem : t.resolve self choose key ∈ t.resolutions self key := resolve_mem_resolutions hchoose
  rw [resolutions_of_not_owns t h] at hmem
  split at hmem
  · exact Or.inl ⟨‹_›, List.mem_singleton.1 hmem⟩
  · obtain ⟨p, hp, heq⟩ := List.mem_map.1 hmem
    exact Or.inr ⟨p, hp, heq.symm⟩

end RoutingTable

/-! ### Dealing a batch out -/

/-- Puts an entry behind the others in the bucket of its level, if there is such a bucket. -/
def deal (path : Key) (buckets : List (List Entry)) (e : Entry) : Option (List (List Entry)) :=
  let level := path.levelOf e.key
  if level < buckets.length then some (buckets.modify level (· ++ [e])) else none

/-- Puts the entries of a batch one after the other into the buckets of their levels. -/
def dealAll (path : Key) (batch : List Entry) : Option (List (List Entry)) :=
  batch.foldlM (deal path) (List.replicate (path.length + 1) [])

/-- A bucket is at every level that an entry can have, so none is missed. -/
theorem deal_byLevel (path : Key) (batch : List Entry) (e : Entry) :
    deal path (byLevel path batch) e = some (byLevel path (batch ++ [e])) := by
  have hlt : path.levelOf e.key < (byLevel path batch).length := by
    rw [length_byLevel]
    exact Nat.lt_succ_of_le (Key.levelOf_le path e.key)
  rw [deal, if_pos hlt]
  refine congrArg some (List.ext_getElem? fun i => ?_)
  by_cases hi : i ≤ path.length
  · rw [List.getElem?_modify, getElem?_byLevel path _ hi, getElem?_byLevel path _ hi,
      List.filter_append]
    by_cases hlevel : path.levelOf e.key = i
    · simp [hlevel]
    · simp [hlevel]
  · rw [List.getElem?_eq_none (by simp; omega), List.getElem?_eq_none (by simp; omega)]

theorem foldlM_deal (path : Key) (before batch : List Entry) :
    batch.foldlM (deal path) (byLevel path before) = some (byLevel path (before ++ batch)) := by
  induction batch generalizing before with
  | nil => rw [List.append_nil]; rfl
  | cons e batch ih =>
    rw [List.foldlM_cons, deal_byLevel, Option.bind_eq_bind, Option.bind_some, ih,
      List.append_assoc, List.singleton_append]

theorem dealAll_eq_byLevel (path : Key) (batch : List Entry) :
    dealAll path batch = some (byLevel path batch) := by
  have hempty : byLevel path [] = List.replicate (path.length + 1) [] := by
    rw [byLevel_eq_map]
    exact List.map_const' .. |>.trans (by rw [List.length_range])
  rw [dealAll, ← hempty, foldlM_deal, List.nil_append]

/-- Every entry is in one bucket. -/
theorem flatten_byLevel_perm (path : Key) (batch : List Entry) :
    (byLevel path batch).flatten.Perm batch := by
  rw [byLevel_eq_map, ← List.flatMap_def, List.perm_iff_count]
  intro e
  rw [count_flatMap_atLevel, if_pos (Nat.lt_succ_of_le (Key.levelOf_le path e.key))]

/-- **The tests for ownership agree.**  A key is compatible with a path or lies in exactly one of
the sibling subtrees at its levels; its level says which.  Being at the last level, not being
picked out of a store and being resolved to the local peer all mean that the key is compatible, and
a key that is not is looked up at its level.  So dealing a batch out by level misses no bucket, and
the buckets are what the batch has at each level in its order, all together the batch. -/
theorem ownership_tests_agree (path : Key) :
    (∀ key : Key,
      Xor (key.isCompatibleWith path = true)
        (∃! level, level < path.length ∧ path.Leaves level key) ∧
      (key.isCompatibleWith path = true → path.levelOf key = path.length) ∧
      (∀ level, path.Leaves level key → path.levelOf key = level) ∧
      path.owns key = key.isCompatibleWith path) ∧
    (∀ s : Store, s.foreignTo path = (s.get none).filter fun e => !path.owns e.key) ∧
    (∀ (self : LocalPeer) (t : RoutingTable) (choose : List Resolution → Option Resolution)
        (key : Key), self.path = path → RoutingTable.IsChoice choose →
      (key ≠ .root → (t.resolve self choose key = .here ↔ path.owns key = true)) ∧
      (path.owns key = false →
        (t.atLevel (path.levelOf key) = [] ∧ t.resolve self choose key = .unreachable) ∨
          ∃ p ∈ t.atLevel (path.levelOf key), t.resolve self choose key = .remote p)) ∧
    (∀ batch : List Entry,
      dealAll path batch = some (byLevel path batch) ∧
      (byLevel path batch).length = path.length + 1 ∧
      (∀ i ≤ path.length, (byLevel path batch)[i]? =
        some (batch.filter fun e => path.levelOf e.key == i)) ∧
      (byLevel path batch).flatten.Perm batch) := by
  refine ⟨fun key => ⟨?_, ?_, ?_, ?_⟩, ?_, ?_, fun batch => ⟨?_, ?_, ?_, ?_⟩⟩
  · exact Key.compatible_xor_leaves path key
  · exact (Key.levelOf_eq_length_iff path key).2
  · exact fun level hleaves => ((Key.leaves_iff path key level).1 hleaves).2.symm
  · exact owns_eq_isCompatibleWith path key
  · exact fun s => s.state.foreignTo_eq path
  · rintro self t choose key rfl hchoose
    exact ⟨RoutingTable.resolve_eq_here_iff hchoose, t.resolve_of_not_owns hchoose⟩
  · exact dealAll_eq_byLevel path batch
  · exact length_byLevel path batch
  · exact fun i hi => getElem?_byLevel path batch hi
  · exact flatten_byLevel_perm path batch

/-- Under the path `01` the longer key `011` is kept and `1` goes to the peer at level 0. -/
theorem ownership_tests_agree_of_two_keys :
    let self : LocalPeer := ⟨⟨⟨"local"⟩, "127.0.0.1:6100"⟩, ⟨[false, true]⟩, true⟩
    let q : Neighbour := ⟨⟨⟨"q"⟩, "127.0.0.1:6001"⟩, ⟨[true]⟩⟩
    let t : RoutingTable := ⟨[[q], []], []⟩
    RoutingTable.IsChoice List.head? ∧
      (self.path.owns ⟨[false, true, true]⟩ = true ∧
        t.resolve self List.head? ⟨[false, true, true]⟩ = .here) ∧
      (self.path.Leaves 0 ⟨[true]⟩ ∧ self.path.owns ⟨[true]⟩ = false ∧
        t.resolve self List.head? ⟨[true]⟩ = .remote q) := by
  intro self q t
  have hchoose : RoutingTable.IsChoice List.head? := fun rs hrs =>
    ⟨rs.head hrs, List.head_mem hrs, List.head?_eq_some_head hrs⟩
  have hkept : self.path.owns ⟨[false, true, true]⟩ = true := by decide
  have hleaves : self.path.Leaves 0 ⟨[true]⟩ := ⟨⟨[true]⟩, by decide, by decide⟩
  obtain ⟨hkeys, -, hresolve, -⟩ := ownership_tests_agree self.path
  have hlevel : self.path.levelOf ⟨[true]⟩ = 0 := (hkeys ⟨[true]⟩).2.2.1 0 hleaves
  have hsent : self.path.owns ⟨[true]⟩ = false := by decide
  refine ⟨hchoose, ⟨hkept, ?_⟩, hleaves, hsent, ?_⟩
  · exact ((hresolve self t _ _ rfl hchoose).1 (by decide)).2 hkept
  · obtain ⟨hnil, -⟩ | ⟨p, hp, heq⟩ := (hresolve self t _ _ rfl hchoose).2 hsent
    · rw [hlevel] at hnil
      cases hnil
    · rw [hlevel] at hp
      rw [heq, List.mem_singleton.1 hp]

end TrieOverlay
