import TrieOverlay.Proofs.Partition
import TrieOverlay.RoutingTable

/-!
# Where a key that is not owned goes

A peer that is not responsible for a key sends it toward the branch that leaves its path at the
level of the key.  In a table where peers are filed with their true paths, everybody at that level
shares one more bit with the key than the peer itself:

* `Key.PartAt.iff_lt_commonLength`: two keys that part from a third at the same bit share that bit.
* `Key.commonLength_branch`: a branch leaves the path at its level, so it is looked up there.
* `RoutingTable.mem_atLevel_add`: a peer is filed at the level where its path leaves the local one.
* `RoutingTable.commonLength_lt_of_placement`: such a peer is closer to every key of that level.
-/

namespace TrieOverlay

namespace Key

variable {a b x path key branch : Key} {level : Nat}

/-- Two keys part at a bit: they are the same before it, and go on there with different bits. -/
def PartAt (a b : Key) (level : Nat) : Prop :=
  a.commonLength b = level ∧ level < a.length ∧ level < b.length

theorem PartAt.symm (h : PartAt a b level) : PartAt b a level := by
  obtain ⟨hcommon, ha, hb⟩ := h
  exact ⟨by rwa [commonLength, commonPrefixLength_comm], hb, ha⟩

theorem partAt_zero (c d : Bool) (cs ds : List Bool) :
    PartAt ⟨c :: cs⟩ ⟨d :: ds⟩ 0 ↔ c ≠ d := by
  rw [PartAt, commonLength, commonPrefixLength, length, length]
  split <;> simp [*]

theorem partAt_succ (c d : Bool) (cs ds : List Bool) (n : Nat) :
    PartAt ⟨c :: cs⟩ ⟨d :: ds⟩ (n + 1) ↔ c = d ∧ PartAt ⟨cs⟩ ⟨ds⟩ n := by
  rw [PartAt, PartAt, commonLength, commonPrefixLength, length, length]
  split <;> simp [*, commonLength, length]

theorem lt_commonLength_cons (c d : Bool) (cs ds : List Bool) (n : Nat) :
    n < commonLength ⟨c :: cs⟩ ⟨d :: ds⟩ ↔ c = d ∧ n < commonLength ⟨cs⟩ ⟨ds⟩ + 1 := by
  rw [commonLength, commonPrefixLength]
  split <;> simp [*, commonLength]

/-- There are only two bits: if `x` parts from `b`, then it parts from `a` at the same bit exactly
if `a` and `b` share that bit and all before it. -/
theorem PartAt.iff_lt_commonLength (h : PartAt b x level) :
    PartAt a x level ↔ level < a.commonLength b := by
  obtain ⟨as⟩ := a
  obtain ⟨bs⟩ := b
  obtain ⟨xs⟩ := x
  induction level generalizing as bs xs with
  | zero =>
    obtain ⟨b, bs, rfl⟩ := List.exists_cons_of_length_pos h.2.1
    obtain ⟨x, xs, rfl⟩ := List.exists_cons_of_length_pos h.2.2
    rw [partAt_zero] at h
    cases as with
    | nil => simp [PartAt, commonLength, commonPrefixLength, length]
    | cons a as =>
      rw [partAt_zero, lt_commonLength_cons]
      cases a <;> cases b <;> cases x <;> simp_all
  | succ n ih =>
    obtain ⟨b, bs, rfl⟩ := List.exists_cons_of_length_pos (Nat.zero_lt_of_lt h.2.1)
    obtain ⟨x, xs, rfl⟩ := List.exists_cons_of_length_pos (Nat.zero_lt_of_lt h.2.2)
    obtain ⟨rfl, hpart⟩ := (partAt_succ b x bs xs n).1 h
    cases as with
    | nil => simp [PartAt, commonLength, commonPrefixLength, length]
    | cons a as =>
      rw [partAt_succ, lt_commonLength_cons, ih as bs xs hpart]
      simp

theorem commonPrefixLength_take_append {ps : List Bool} {i : Nat} {b : Bool} (h : ps[i]? = some b) :
    commonPrefixLength ps (ps.take i ++ [!b]) = i := by
  induction ps generalizing i with
  | nil => simp at h
  | cons p ps ih =>
    cases i with
    | zero =>
      rw [List.getElem?_cons_zero] at h
      obtain rfl := Option.some.inj h
      cases p <;> rfl
    | succ i =>
      rw [List.getElem?_cons_succ] at h
      rw [List.take_succ_cons, List.cons_append, commonPrefixLength, if_pos rfl, ih h]

/-- A branch leaves the path at its level, and ends there. -/
theorem commonLength_branch (h : path.branchAt? level = some branch) :
    path.commonLength branch = level ∧ level < path.length ∧ branch.length = level + 1 := by
  obtain ⟨b, hb, rfl⟩ := Option.map_eq_some_iff.1 h
  have hlt : level < path.length := (List.getElem?_eq_some_iff.1 hb).1
  refine ⟨commonPrefixLength_take_append hb, hlt, ?_⟩
  change (path.bits.take level ++ [!b]).length = level + 1
  rw [List.length_append, List.length_take, List.length_singleton]
  exact congrArg (· + 1) (Nat.min_eq_left (Nat.le_of_lt hlt))

theorem isRoot_eq_false (h : key ≠ root) : key.isRoot = false := by
  rw [isRoot, List.isEmpty_eq_false_iff]
  exact fun hnil => h (congrArg mk hnil)

theorem branch_ne_root (h : path.branchAt? level = some branch) : branch ≠ .root := by
  rintro rfl
  exact Nat.succ_ne_zero _ (commonLength_branch h).2.2.symm

/-- A key that is not owned leaves the path at its level. -/
theorem levelOf_of_not_owns (h : path.owns key = false) :
    path.levelOf key = path.commonLength key ∧ path.commonLength key < path.length ∧
      path.commonLength key < key.length := by
  have hlt := (owns_eq_false_iff path key).1 h
  have hpath := commonLength_le_left path key
  have hkey := commonLength_le_left key path
  rw [commonLength, commonPrefixLength_comm] at hkey
  change path.commonLength key ≤ key.length at hkey
  simp only [levelOf] at hlt ⊢
  split at hlt
  · exact absurd hlt (Nat.lt_irrefl _)
  · rename_i hne
    rw [if_neg hne]
    omega

theorem partAt_of_not_owns (h : path.owns key = false) :
    PartAt path key (path.levelOf key) := by
  obtain ⟨hlevel, hpath, hkey⟩ := levelOf_of_not_owns h
  rw [hlevel]
  exact ⟨rfl, hpath, hkey⟩

theorem exists_branch_of_not_owns (h : path.owns key = false) :
    ∃ branch, path.branchAt? (path.levelOf key) = some branch := by
  rw [branchAt?, bit?, List.getElem?_eq_getElem ((owns_eq_false_iff path key).1 h)]
  exact ⟨_, rfl⟩

end Key

namespace RoutingTable

variable {t : RoutingTable} {self : LocalPeer} {p q : Neighbour} {level n : Nat} {branch key : Key}

/-- What it means to be filed at a level. -/
theorem placement_eq_level (h : placement self p = .level level) :
    p.info.id ≠ self.info.id ∧ self.path.commonLength p.path = level ∧
      level < self.path.length ∧ level < p.path.length := by
  simp only [placement] at h
  split at h
  · cases h
  · split at h
    · cases h
    · split at h
      · obtain rfl := Placement.level.inj h
        exact ⟨‹_›, rfl, ‹_›⟩
      · cases h

theorem atLevel_remove (t : RoutingTable) (id : PeerId) (level : Nat) :
    (t.remove id).atLevel level = (t.atLevel level).filter (·.info.id ≠ id) := by
  rw [atLevel, remove, List.getElem?_map, atLevel]
  cases t.levels[level]? <;> rfl

theorem atLevel_file (t : RoutingTable) (n : Nat) (p : Neighbour) (level : Nat) :
    (t.file n p).atLevel level = t.atLevel level ++ if level = n then [p] else [] := by
  -- the levels that are missing are empty
  have hmissing : (t.levels ++ List.replicate (n + 1 - t.levels.length) [])[level]?.getD [] =
      t.atLevel level := by
    by_cases hl : level < t.levels.length
    · rw [List.getElem?_append_left hl, atLevel]
    · rw [List.getElem?_append_right (Nat.le_of_not_lt hl), List.getElem?_replicate, atLevel,
        List.getElem?_eq_none (Nat.le_of_not_lt hl)]
      split <;> rfl
  rw [atLevel, file, List.getElem?_modify, ← hmissing]
  cases hlevel : (t.levels ++ List.replicate (n + 1 - t.levels.length) [])[level]? with
  | none =>
    -- the level of the peer is there
    have hlength := List.getElem?_eq_none_iff.1 hlevel
    rw [List.length_append, List.length_replicate] at hlength
    rw [if_neg (by omega)]
    rfl
  | some ps =>
    by_cases hn : n = level
    · simp only [Option.map_eq_map, Option.map_some, if_pos hn, if_pos hn.symm, Option.getD_some]
    · simp only [Option.map_eq_map, Option.map_some, if_neg hn, if_neg (Ne.symm hn),
        Option.getD_some, List.append_nil]

theorem mem_atLevel_file (h : q ∈ (t.file n p).atLevel level) :
    q ∈ t.atLevel level ∨ (q = p ∧ level = n) := by
  rw [atLevel_file, List.mem_append] at h
  refine h.imp_right fun h => ?_
  split at h
  · exact ⟨List.mem_singleton.1 h, ‹_›⟩
  · cases h

/-- A peer is filed at the level where its path leaves the local one. -/
theorem mem_atLevel_add (h : q ∈ (t.add self p).2.atLevel level) :
    q ∈ t.atLevel level ∨ (q = p ∧ placement self p = .level level) := by
  simp only [add] at h
  split at h
  · exact Or.inl h
  · have hq : q ∈ (t.remove p.info.id).atLevel level := h
    rw [atLevel_remove] at hq
    exact Or.inl (List.mem_filter.1 hq).1
  · rename_i n hplace
    rcases mem_atLevel_file h with hq | ⟨rfl, rfl⟩
    · rw [atLevel_remove] at hq
      exact Or.inl (List.mem_filter.1 hq).1
    · exact Or.inr ⟨rfl, hplace⟩

/-- A choice that takes one of what there is. -/
def IsChoice (choose : List Resolution → Option Resolution) : Prop :=
  ∀ rs ≠ [], ∃ r ∈ rs, choose rs = some r

/-- A choice takes one of the candidates, and there always is one. -/
theorem resolve_mem_resolutions {choose : List Resolution → Option Resolution}
    (h : IsChoice choose) : t.resolve self choose key ∈ t.resolutions self key := by
  have hne : t.resolutions self key ≠ [] := by
    rw [resolutions]
    simp only
    split
    · split <;> simp
    · split
      · simp
      · split <;> simp_all
  obtain ⟨r, hr, hchosen⟩ := h _ hne
  rw [resolve, hchosen]
  exact hr

/-- A branch of the local path is looked up at the level where it leaves the path. -/
theorem resolutions_branch (t : RoutingTable) (h : self.path.branchAt? level = some branch) :
    t.resolutions self branch =
      if t.atLevel level = [] then [.unreachable] else (t.atLevel level).map .remote := by
  obtain ⟨hcommon, hlt, hlength⟩ := Key.commonLength_branch h
  rw [resolutions, Key.isRoot_eq_false (Key.branch_ne_root h), if_neg Bool.false_ne_true]
  simp only [hcommon]
  rw [if_neg (by omega)]
  cases t.atLevel level <;> rfl

/-- A key that is not owned is looked up at its level, and nowhere else. -/
theorem resolutions_of_not_owns (t : RoutingTable) (h : self.path.owns key = false) :
    t.resolutions self key =
      if t.atLevel (self.path.levelOf key) = [] then [.unreachable]
      else (t.atLevel (self.path.levelOf key)).map .remote := by
  obtain ⟨hlevel, hpath, hkey⟩ := Key.levelOf_of_not_owns h
  have hroot : key ≠ .root := by
    rintro rfl
    exact absurd hkey (Nat.not_lt_zero _)
  rw [resolutions, Key.isRoot_eq_false hroot, if_neg Bool.false_ne_true, hlevel]
  simp only
  rw [if_neg (by omega)]
  cases t.atLevel (self.path.commonLength key) <;> rfl

/-- A peer at the level of a key that is not owned shares more bits with the key. -/
theorem commonLength_lt_of_placement (h : self.path.owns key = false)
    (hp : placement self p = .level (self.path.levelOf key)) :
    self.path.commonLength key < p.path.commonLength key := by
  have hkey := Key.partAt_of_not_owns h
  have hpart : Key.PartAt self.path p.path (self.path.levelOf key) := (placement_eq_level hp).2
  rw [hkey.1]
  exact hkey.symm.iff_lt_commonLength.1 hpart.symm

end RoutingTable

end TrieOverlay
