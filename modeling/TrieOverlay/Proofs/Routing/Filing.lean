import TrieOverlay.Proofs.Routing.Table

/-!
# Tables and the paths they were filed under

A peer is filed once, against the path that the local peer has at that time; the path may change
afterwards, and a table is not sorted again when it does.  The *filings* of a sequence of acts
record for every peer id the peer that was filed last and the path it was filed under:

* `RoutingTable.Files.run`: whatever the acts, the peers at the places of the table are exactly
  those of the filings.
* `RoutingTable.described_iff_filed_alike`: **how far a table describes the current path.**  A peer
  at a level lies in the sibling subtree of the current path exactly if that path and the one it was
  filed under agree beyond the level, and only then is it closer to the keys that are sent there.
-/

namespace TrieOverlay

namespace Key

variable {path x : Key} {level : Nat}

/-- The sibling subtree at a level has the keys that part from the path there. -/
theorem exists_branch_isPrefixOf_iff :
    (∃ branch, path.branchAt? level = some branch ∧ branch.isPrefixOf x = true) ↔
      PartAt path x level := by
  constructor
  · rintro ⟨branch, hbranch, hbelow⟩
    obtain ⟨hcommon, hpath, hlength⟩ := commonLength_branch hbranch
    have hpart : PartAt branch path level :=
      PartAt.symm ⟨hcommon, hpath, by rw [hlength]; exact Nat.lt_succ_self _⟩
    -- a key below the branch agrees with all of it
    have hx : commonPrefixLength branch.bits x.bits = branch.length :=
      (commonPrefixLength_eq_length_iff _ _).2 hbelow
    refine PartAt.symm (hpart.iff_lt_commonLength.2 ?_)
    rw [commonLength, commonPrefixLength_comm, hx, hlength]
    exact Nat.lt_succ_self _
  · rintro ⟨hcommon, hpath, hx⟩
    obtain ⟨b, hb⟩ : ∃ b, path.bit? level = some b := ⟨_, List.getElem?_eq_getElem hpath⟩
    have hbranch : path.branchAt? level = some (path.take level ++ ⟨[!b]⟩) := by
      rw [branchAt?, hb, Option.map_some]
    obtain ⟨hcommon', -, hlength⟩ := commonLength_branch hbranch
    refine ⟨_, hbranch, (commonPrefixLength_eq_length_iff _ _).1 ?_⟩
    have hpart : PartAt path (path.take level ++ ⟨[!b]⟩) level :=
      ⟨hcommon', hpath, by rw [hlength]; exact Nat.lt_succ_self _⟩
    have hlt := (PartAt.symm ⟨hcommon, hpath, hx⟩).iff_lt_commonLength.1 hpart.symm
    refine Nat.le_antisymm (commonLength_le_left _ x) ?_
    change length _ ≤ _
    rw [hlength]
    exact hlt

end Key

namespace RoutingTable

variable {t : RoutingTable} {self : LocalPeer} {p q : Neighbour} {place : Placement}
  {level : Nat} {id : PeerId}

/-! ### The places of a table -/

/-- The peers at a place. -/
def peersAt (t : RoutingTable) : Placement → List Neighbour
  | .level n => t.atLevel n
  | .replica => t.replicas
  | .ignored => []

/-- A peer is filed at the level where its path parts from the local one. -/
theorem placement_eq_level_iff :
    placement self p = .level level ↔
      p.info.id ≠ self.info.id ∧ Key.PartAt self.path p.path level := by
  constructor
  · intro h
    obtain ⟨hid, hcommon, hself, hp⟩ := placement_eq_level h
    exact ⟨hid, hcommon, hself, hp⟩
  · rintro ⟨hid, hcommon, hself, hp⟩
    simp only [placement]
    rw [if_neg hid, if_neg (by omega), if_pos (by omega), hcommon]

/-- A peer is filed as a replica if its path is the local one. -/
theorem placement_eq_replica_iff :
    placement self p = .replica ↔ p.info.id ≠ self.info.id ∧ p.path = self.path := by
  have hsame : (self.path.commonLength p.path = self.path.length ∧
      self.path.commonLength p.path = p.path.length) ↔ p.path = self.path := by
    constructor
    · rintro ⟨hself, hp⟩
      have hway := List.isPrefixOf_iff_prefix.1 ((commonPrefixLength_eq_length_iff _ _).1 hself)
      exact congrArg Key.mk (hway.eq_of_length (hself.symm.trans hp)).symm
    · intro h
      rw [h]
      have hself := (commonPrefixLength_eq_length_iff self.path.bits self.path.bits).2
        (List.isPrefixOf_iff_prefix.2 (List.prefix_refl _))
      exact ⟨hself, hself⟩
  simp only [placement, ← hsame]
  split
  · simp [*]
  · split
    · exact iff_of_true rfl ⟨‹_›, ‹_›⟩
    · split <;> exact iff_of_false (by simp) fun h => absurd h.2 ‹_›

theorem not_mem_peersAt_empty (p : Neighbour) (place : Placement) :
    p ∉ empty.peersAt place := by
  cases place <;> simp [peersAt, atLevel, empty]

theorem mem_peersAt_remove :
    q ∈ (t.remove id).peersAt place ↔ q ∈ t.peersAt place ∧ q.info.id ≠ id := by
  cases place with
  | level n => rw [peersAt, atLevel_remove, List.mem_filter, decide_eq_true_iff, peersAt]
  | replica => rw [peersAt, remove, List.mem_filter, decide_eq_true_iff, peersAt]
  | ignored => simp [peersAt]

/-- A peer goes where it belongs, out of every other place, and nobody else is moved. -/
theorem mem_peersAt_add (h : placement self p ≠ .ignored) :
    q ∈ (t.add self p).2.peersAt place ↔
      (q = p ∧ place = placement self p) ∨ (q ∈ t.peersAt place ∧ q.info.id ≠ p.info.id) := by
  rw [or_comm, ← mem_peersAt_remove]
  simp only [add]
  split
  · exact absurd ‹_› h
  · rename_i hplace
    cases place <;> simp [peersAt, hplace, atLevel]
  · rename_i n hplace
    cases place with
    | level m =>
      rw [peersAt, peersAt, atLevel_file]
      split <;> simp_all
    | replica => simp [peersAt, file, hplace]
    | ignored => simp [peersAt, hplace]

theorem add_eq_of_ignored (h : placement self p = .ignored) : (t.add self p).2 = t := by
  rw [add, h]

/-! ### Acts -/

/-- What happens to a table, or to the path of the peer that it belongs to. -/
inductive Act where
  /-- A peer is announced. -/
  | add (p : Neighbour)
  /-- A peer is forgotten. -/
  | remove (id : PeerId)
  /-- The local path changes. -/
  | setPath (path : Key)
deriving DecidableEq, Repr

/-- The local peer after an act. -/
def Act.peer (self : LocalPeer) : Act → LocalPeer
  | .setPath path => { self with path }
  | _ => self

/-- The table after an act. -/
def Act.table (self : LocalPeer) (t : RoutingTable) : Act → RoutingTable
  | .add p => (t.add self p).2
  | .remove id => t.remove id
  | .setPath _ => t

/-- The local peer after some acts. -/
def peerAfter (self : LocalPeer) (acts : List Act) : LocalPeer :=
  acts.foldl Act.peer self

/-- The table after some acts. -/
def tableAfter (self : LocalPeer) (t : RoutingTable) : List Act → RoutingTable
  | [] => t
  | a :: acts => tableAfter (a.peer self) (a.table self t) acts

/-! ### Filings -/

/-- For every peer id the peer that is filed, and the local path it was filed under. -/
abbrev Filings := PeerId → Option (Neighbour × Key)

/-- The filings after an act. -/
def Act.filings (self : LocalPeer) (r : Filings) : Act → Filings
  | .add p =>
    if placement self p = .ignored then r else Function.update r p.info.id (some (p, self.path))
  | .remove id => Function.update r id none
  | .setPath _ => r

/-- The filings after some acts. -/
def filingsAfter (self : LocalPeer) (r : Filings) : List Act → Filings
  | [] => r
  | a :: acts => filingsAfter (a.peer self) (a.filings self r) acts

/-- Where a peer belongs under a path. -/
def placeUnder (self : LocalPeer) (path : Key) (p : Neighbour) : Placement :=
  placement { self with path } p

/-- Everybody in the table is where the path of its filing puts it, and all filings are there. -/
def Files (self : LocalPeer) (t : RoutingTable) (r : Filings) : Prop :=
  ∀ place p, p ∈ t.peersAt place ↔
    ∃ path, r p.info.id = some (p, path) ∧ placeUnder self path p = place ∧ place ≠ .ignored

variable {r : Filings}

theorem files_empty (self : LocalPeer) : Files self .empty fun _ => none := by
  intro place p
  simp [not_mem_peersAt_empty p place]

theorem info_peerAfter (self : LocalPeer) (acts : List Act) :
    (peerAfter self acts).info = self.info := by
  induction acts generalizing self with
  | nil => rfl
  | cons a acts ih =>
    have hact : (a.peer self).info = self.info := by cases a <;> rfl
    exact (ih (a.peer self)).trans hact

theorem placeUnder_peerAfter (self : LocalPeer) (acts : List Act) :
    placeUnder (peerAfter self acts) = placeUnder self := by
  funext path p
  simp only [placeUnder, placement, info_peerAfter]

theorem Files.add (h : Files self t r) (hplace : placement self p ≠ .ignored) :
    Files self (t.add self p).2 (Function.update r p.info.id (some (p, self.path))) := by
  intro place q
  rw [mem_peersAt_add hplace, h place q]
  by_cases hid : q.info.id = p.info.id
  · rw [hid, Function.update_self]
    constructor
    · rintro (⟨rfl, rfl⟩ | ⟨-, hne⟩)
      · exact ⟨_, rfl, rfl, hplace⟩
      · exact absurd rfl hne
    · rintro ⟨path, hfiled, hq, -⟩
      obtain ⟨rfl, rfl⟩ := Prod.mk.inj (Option.some.inj hfiled)
      exact Or.inl ⟨rfl, hq.symm⟩
  · rw [Function.update_of_ne hid]
    constructor
    · rintro (⟨rfl, -⟩ | ⟨hfiled, -⟩)
      · exact absurd rfl hid
      · exact hfiled
    · intro hfiled
      exact Or.inr ⟨hfiled, hid⟩

theorem Files.remove (h : Files self t r) (id : PeerId) :
    Files self (t.remove id) (Function.update r id none) := by
  intro place q
  rw [mem_peersAt_remove, h place q]
  by_cases hid : q.info.id = id
  · simp [hid]
  · rw [Function.update_of_ne hid]
    exact and_iff_left hid

/-- One act keeps the filings true of the table; a change of path touches neither. -/
theorem Files.act (h : Files self t r) (a : Act) :
    Files (a.peer self) (a.table self t) (a.filings self r) := by
  cases a with
  | add p =>
    by_cases hplace : placement self p = .ignored
    · rw [Act.table, add_eq_of_ignored hplace, Act.filings, if_pos hplace]
      exact h
    · rw [Act.filings, if_neg hplace]
      exact h.add hplace
  | remove id => exact h.remove id
  | setPath path => exact h

/-- Whatever the acts, the peers at the places of a table are exactly those of its filings. -/
theorem Files.run (h : Files self t r) (acts : List Act) :
    Files (peerAfter self acts) (tableAfter self t acts) (filingsAfter self r acts) := by
  induction acts generalizing self t r with
  | nil => exact h
  | cons a acts ih => exact ih (h.act a)

/-! ### The current path -/

/-- A key that is not owned is sent to a peer at its level, if there is one. -/
theorem remote_mem_resolutions_iff {key : Key} (h : self.path.owns key = false) :
    .remote p ∈ t.resolutions self key ↔ p ∈ t.atLevel (self.path.levelOf key) := by
  rw [resolutions_of_not_owns t h]
  split
  · simp [*]
  · simp

/-- **A table describes the path under which its peers were filed.**  Whatever peers were announced
and forgotten and however the path changed: a peer at a level lies in the sibling subtree of the
current path there exactly if the current path agrees with the one it was filed under beyond the
level; a replica has the current path exactly if it was filed under it; and a peer that a foreign
key is sent to is closer to the key exactly if the current path agrees with the one it was filed
under beyond the level of the key. -/
theorem described_iff_filed_alike (self : LocalPeer) (acts : List Act) :
    let here := peerAfter self acts
    let t := tableAfter self .empty acts
    let filed := filingsAfter self (fun _ => none) acts
    (∀ level, ∀ p ∈ t.atLevel level, ∃ path, filed p.info.id = some (p, path) ∧
      placeUnder self path p = .level level ∧
      ((∃ branch, here.path.branchAt? level = some branch ∧ branch.isPrefixOf p.path = true) ↔
        level < here.path.commonLength path)) ∧
    (∀ p ∈ t.replicas, ∃ path, filed p.info.id = some (p, path) ∧
      placeUnder self path p = .replica ∧ (p.path = here.path ↔ path = here.path)) ∧
    (∀ choose key p, IsChoice choose → here.path.owns key = false →
      t.resolve here choose key = .remote p →
      ∃ path, filed p.info.id = some (p, path) ∧
        placeUnder self path p = .level (here.path.levelOf key) ∧
        (here.path.commonLength key < p.path.commonLength key ↔
          here.path.levelOf key < here.path.commonLength path)) := by
  intro here t filed
  have hfiles : Files here t filed := (files_empty self).run acts
  have hself : placeUnder here = placeUnder self := placeUnder_peerAfter self acts
  -- the filing of a peer at a level, and where its path parts from the one it was filed under
  have hlevel : ∀ {level p}, p ∈ t.atLevel level → ∃ path, filed p.info.id = some (p, path) ∧
      placeUnder self path p = .level level ∧ Key.PartAt path p.path level := by
    intro level p hp
    obtain ⟨path, hfiled, hplace, -⟩ := (hfiles (.level level) p).1 hp
    rw [hself] at hplace
    exact ⟨path, hfiled, hplace, (placement_eq_level_iff.1 hplace).2⟩
  refine ⟨?_, ?_, ?_⟩
  · intro level p hp
    obtain ⟨path, hfiled, hplace, hpart⟩ := hlevel hp
    refine ⟨path, hfiled, hplace, ?_⟩
    rw [Key.exists_branch_isPrefixOf_iff]
    exact hpart.iff_lt_commonLength
  · intro p hp
    obtain ⟨path, hfiled, hplace, -⟩ := (hfiles .replica p).1 hp
    rw [hself] at hplace
    have hpath : p.path = path := (placement_eq_replica_iff.1 hplace).2
    exact ⟨path, hfiled, hplace, by rw [hpath]⟩
  · intro choose key p hchoose hkey hp
    have hmem : .remote p ∈ t.resolutions here key := hp ▸ resolve_mem_resolutions hchoose
    obtain ⟨path, hfiled, hplace, hpart⟩ := hlevel ((remote_mem_resolutions_iff hkey).1 hmem)
    have hforeign : Key.PartAt here.path key (here.path.levelOf key) := Key.partAt_of_not_owns hkey
    refine ⟨path, hfiled, hplace, ?_⟩
    -- both sides say that the peer still parts from the current path at the level of the key
    rw [hforeign.1, ← hforeign.symm.iff_lt_commonLength, ← hpart.iff_lt_commonLength]
    exact ⟨Key.PartAt.symm, Key.PartAt.symm⟩

/-- After a change of path the peers stay where they were: one at a level where its path does not
leave the local one, one among the replicas of another path, and a key is sent no closer. -/
theorem described_iff_filed_alike_of_setPath :
    let self : LocalPeer := ⟨⟨⟨"local"⟩, "127.0.0.1:6100"⟩, ⟨[false]⟩, true⟩
    let q : Neighbour := ⟨⟨⟨"q"⟩, "127.0.0.1:6001"⟩, ⟨[true]⟩⟩
    let r : Neighbour := ⟨⟨⟨"r"⟩, "127.0.0.1:6002"⟩, ⟨[false]⟩⟩
    let acts : List Act := [.add q, .add r, .setPath ⟨[true]⟩]
    let here := peerAfter self acts
    let t := tableAfter self .empty acts
    (q ∈ t.atLevel 0 ∧
      ¬∃ branch, here.path.branchAt? 0 = some branch ∧ branch.isPrefixOf q.path = true) ∧
    (r ∈ t.replicas ∧ r.path ≠ here.path) ∧
    (IsChoice List.head? ∧ here.path.owns ⟨[false]⟩ = false ∧
      t.resolve here List.head? ⟨[false]⟩ = .remote q ∧
      ¬here.path.commonLength ⟨[false]⟩ < q.path.commonLength ⟨[false]⟩) := by
  intro self q r acts here t
  have hq : q ∈ t.atLevel 0 := by decide
  have hr : r ∈ t.replicas := by decide
  have hchoose : IsChoice List.head? := fun rs hrs =>
    ⟨rs.head hrs, List.head_mem hrs, List.head?_eq_some_head hrs⟩
  have hkey : here.path.owns ⟨[false]⟩ = false := by decide
  have hto : t.resolve here List.head? ⟨[false]⟩ = .remote q := by decide
  obtain ⟨hlevels, hreplicas, hkeys⟩ := described_iff_filed_alike self acts
  obtain ⟨path, hfiled, -, hbranch⟩ := hlevels 0 q hq
  obtain ⟨path', hfiled', -, hpath'⟩ := hreplicas r hr
  obtain ⟨path'', hfiled'', -, hcloser⟩ := hkeys _ _ _ hchoose hkey hto
  -- both were filed under the path `0`
  have hfiledq : filingsAfter self (fun _ => none) acts q.info.id = some (q, ⟨[false]⟩) := by decide
  have hfiledr : filingsAfter self (fun _ => none) acts r.info.id = some (r, ⟨[false]⟩) := by decide
  obtain rfl := (Prod.mk.inj (Option.some.inj (hfiledq.symm.trans hfiled))).2
  obtain rfl := (Prod.mk.inj (Option.some.inj (hfiledr.symm.trans hfiled'))).2
  obtain rfl := (Prod.mk.inj (Option.some.inj (hfiledq.symm.trans hfiled''))).2
  refine ⟨⟨hq, fun h => ?_⟩, ⟨hr, fun h => ?_⟩, hchoose, hkey, hto, fun h => ?_⟩
  · exact absurd (hbranch.1 h) (by decide)
  · exact absurd (hpath'.1 h) (by decide)
  · exact absurd (hcloser.1 h) (by decide)

end RoutingTable

end TrieOverlay
