import Mathlib.Data.List.Chain
import TrieOverlay.Proofs.Node.Draining
import TrieOverlay.Proofs.Node.Desk
import TrieOverlay.Proofs.Routing.Table

/-!
# Forwarding comes to an end

An `Overlay` is some peers at fixed paths whose tables were filled with the true paths of others.  A
*hop* leads from a peer that does not own a key to a peer that its table gives for the branch that
the message goes to.

* `Node.directed_of_cycle`, `Node.forwarded_of_cycle`: a node sends an entry that it does not own
  toward the branch at the level of its key, and an entry of a batch that it splits is sent.
* `Overlay.forwarding`: every hop leads to a peer that shares more bits with the key, so a chain of
  hops visits no peer twice, and it reaches a peer that owns the key or a level without peers after
  no more hops than the key has bits.
-/

namespace TrieOverlay

/-! ### Which branch a message goes to -/

/-- Whether entries that go toward a branch belong there: a peer that does not split its own
requests sends them toward the root, all other entries go to the branch at the level of their
keys. -/
def IsDirected (peer : LocalPeer) (branch : Key) (es : List Entry) : Prop :=
  (branch = .root ∧ peer.isSuperPeer = false) ∨
    ∀ e ∈ es, peer.path.owns e.key = false ∧
      peer.path.branchAt? (peer.path.levelOf e.key) = some branch

/-- Whether a message goes where its entries belong. -/
def Letter.Directed (peer : LocalPeer) (l : Letter) : Prop :=
  ∀ branch, l.target = .toward branch → IsDirected peer branch l.entries

/-- Whether a batch that is to be sent goes where its entries belong. -/
def Duty.Directed (peer : LocalPeer) : Duty → Prop
  | send _ branch b => IsDirected peer branch b.entries
  | serve _ _ | apply _ _ _ _ | share _ _ _ | drop | retry | resend _ | merge => True

/-- Whether a peer splits the batch of a request by level. -/
def Errand.IsSplitBy (peer : LocalPeer) (r : Errand) : Prop :=
  match r.origin with
  | .here => peer.isSuperPeer = true
  | .peer _ _ viaReplica => viaReplica = false

/-- Whether an entry that goes toward a branch is in the batch of a duty. -/
def Duty.Forwards (peer : LocalPeer) (branch : Key) (e : Entry) : Duty → Prop
  | serve _ r => r.IsSplitBy peer ∧ e ∈ r.kept
  | send _ branch' b => branch' = branch ∧ e ∈ b.entries
  | apply _ _ _ _ | share _ _ _ | drop | retry | resend _ | merge => False

/-- Whether an entry was sent toward a branch. -/
def SentToward (log : List Slip) (branch : Key) (e : Entry) : Prop :=
  ∃ s ∈ log, s.letter.target = .toward branch ∧ e ∈ s.letter.entries

section

variable {path branch : Key} {peer : LocalPeer} {e : Entry} {d : Duty} {ds : List Duty}
  {w w' : View}

/-- The parts of a batch go where their entries go. -/
theorem Duty.directed_sends {task : Task} {b : Batch} (h : d ∈ Duty.sends task peer.path b) :
    d.Directed peer := by
  obtain ⟨i, branch, p, hi, hbranch, hpart, rfl⟩ := Duty.mem_sends h
  refine Or.inr fun e he => ?_
  rw [owns_eq_false_iff, Batch.levelOf_of_mem_partAt hpart he]
  exact ⟨hi, hbranch⟩

/-- Everything that comes of a duty is directed. -/
theorem View.Fulfils.directed (hf : w.Fulfils d ds w') :
    ∀ d' ∈ ds, d'.Directed w.peer := by
  cases hf with
  | nothing _ _ => simp
  | root _ hs => exact List.forall_mem_singleton.2 (Or.inl ⟨rfl, hs⟩)
  | @split parent r w _ _ =>
    refine List.forall_mem_append.2 ⟨fun d' => Duty.directed_sends, ?_⟩
    exact List.forall_mem_map.2 fun _ _ => trivial
  | @splitOther parent r w _ _ _ =>
    refine List.forall_mem_append.2 ⟨fun d' => Duty.directed_sends, ?_⟩
    exact List.forall_mem_map.2 fun _ _ => trivial
  | replica _ => exact List.forall_mem_singleton.2 trivial
  | @apply _ _ _ shared _ =>
    cases shared <;> exact List.forall_mem_singleton.2 trivial
  | drop => simp
  | wait => simp
  | retry => exact List.forall_mem_map.2 fun _ _ => trivial
  | resendNothing _ => simp
  | resend _ => exact List.forall_mem_singleton.2 trivial
  | merge => simp

/-- An entry of a batch that is split is in the part at its level. -/
theorem Duty.exists_mem_sends (task : Task) {r : Errand} (he : e ∈ r.kept)
    (hlevel : path.levelOf e.key < path.length)
    (hbranch : path.branchAt? (path.levelOf e.key) = some branch) :
    ∃ d ∈ Duty.sends task path r.batch, d.Forwards peer branch e := by
  have hat : e ∈ r.batch.kept (atLevel path (path.levelOf e.key) r.entries) := by
    rw [atLevel, Batch.kept_filter]
    exact List.mem_filter.2 ⟨he, beq_self_eq_true _⟩
  have hne : atLevel path (path.levelOf e.key) r.entries ≠ [] :=
    List.ne_nil_of_mem (r.batch.kept_subset _ hat)
  have hpart : r.batch.partAt path (path.levelOf e.key) =
      some ⟨r.batch.kept (atLevel path (path.levelOf e.key) r.entries), r.inFile⟩ := if_neg hne
  refine ⟨.send task branch ⟨r.batch.kept (atLevel path (path.levelOf e.key) r.entries), r.inFile⟩,
    List.mem_filterMap.2 ⟨path.levelOf e.key, List.mem_range.2 hlevel, ?_⟩, rfl, hat⟩
  simp only [hpart, hbranch]

/-- An entry that is not owned stays in a duty until it is sent. -/
theorem View.Fulfils.forwards (hf : w.Fulfils d ds w')
    (hlevel : w.peer.path.levelOf e.key < w.peer.path.length)
    (hbranch : w.peer.path.branchAt? (w.peer.path.levelOf e.key) = some branch)
    (hd : d.Forwards w.peer branch e) :
    ∃ d' ∈ ds, d'.Forwards w.peer branch e := by
  cases hf with
  | @nothing parent r w _ hnil =>
    have he : e ∈ r.entries := r.kept_subset hd.2
    rw [hnil] at he
    exact absurd he List.not_mem_nil
  | @root parent r w hhere hs =>
    obtain ⟨hsplit, -⟩ := hd
    rw [Errand.IsSplitBy, hhere] at hsplit
    exact absurd hsplit (by simp [hs])
  | @split parent r w _ _ =>
    obtain ⟨d', hd', hforwards⟩ := Duty.exists_mem_sends (r.task parent) hd.2 hlevel hbranch
    exact ⟨d', List.mem_append_left _ hd', hforwards⟩
  | @splitOther parent r w _ _ _ =>
    obtain ⟨d', hd', hforwards⟩ := Duty.exists_mem_sends (r.task parent) hd.2 hlevel hbranch
    exact ⟨d', List.mem_append_left _ hd', hforwards⟩
  | @replica parent r w _ _ hother =>
    obtain ⟨hsplit, -⟩ := hd
    rw [Errand.IsSplitBy, hother] at hsplit
    exact Bool.noConfusion hsplit
  | apply => exact hd.elim
  | drop => exact hd.elim
  | wait => exact hd.elim
  | retry => exact hd.elim
  | resendNothing _ => exact hd.elim
  | resend _ => exact hd.elim
  | merge => exact hd.elim

end

/-! ### What a cycle sends -/

/-- At a peer, what is left to send and what was sent is directed. -/
structure Directs (peer : LocalPeer) (ds : List Duty) (w : View) (log : List Slip) : Prop where
  peer_eq : w.peer = peer
  duties : ∀ d ∈ ds, d.Directed peer
  letters : ∀ s ∈ log, s.letter.Directed peer

theorem Directs.upholds (peer : LocalPeer) : Upholds Call.Encodable (Directs peer) where
  readable _ hc := hc.readable
  fulfils d ds ds' v v' log hf h := by
    obtain ⟨rfl, hduties, hletters⟩ := h
    refine ⟨hf.peer_eq, List.forall_mem_append.2 ⟨hf.directed, ?_⟩, hletters⟩
    exact (List.forall_mem_cons.1 hduties).2
  send s m task branch b ds v log ht _ _ h := by
    obtain ⟨hsend, hduties⟩ := List.forall_mem_cons.1 h.duties
    refine ⟨h.peer_eq, hduties, List.forall_mem_append.2 ⟨h.letters, ?_⟩⟩
    rw [List.forall_mem_singleton, ht.letter_eq]
    intro branch' htarget
    obtain rfl : branch = branch' := Target.toward.inj htarget
    exact hsend
  share s task path b ds v log ht h := by
    refine ⟨h.peer_eq, ?_, List.forall_mem_append.2 ⟨h.letters, ?_⟩⟩
    · exact List.forall_mem_cons.2 ⟨trivial, (List.forall_mem_cons.1 h.duties).2⟩
    · rw [List.forall_mem_singleton, ht.letter_eq]
      exact fun branch htarget => Target.noConfusion htarget
  take c ds v v' log hc ht h := ⟨ht.peer_eq.trans h.peer_eq, h.duties, h.letters⟩

/-- At a peer, an entry that goes toward a branch was sent there or is still in a duty. -/
structure Forwards (peer : LocalPeer) (branch : Key) (e : Entry) (ds : List Duty) (w : View)
    (log : List Slip) : Prop where
  peer_eq : w.peer = peer
  somewhere : SentToward log branch e ∨ ∃ d ∈ ds, d.Forwards peer branch e

theorem SentToward.append {log : List Slip} {branch : Key} {e : Entry}
    (h : SentToward log branch e) (s : Slip) : SentToward (log ++ [s]) branch e := by
  obtain ⟨s', hs', hsent⟩ := h
  exact ⟨s', List.mem_append_left _ hs', hsent⟩

theorem Forwards.upholds {peer : LocalPeer} {branch : Key} {e : Entry}
    (hlevel : peer.path.levelOf e.key < peer.path.length)
    (hbranch : peer.path.branchAt? (peer.path.levelOf e.key) = some branch) :
    Upholds Call.Encodable (Forwards peer branch e) where
  readable _ hc := hc.readable
  fulfils d ds ds' v v' log hf h := by
    obtain ⟨rfl, hsent | ⟨d', hd', hforwards⟩⟩ := h
    · exact ⟨hf.peer_eq, Or.inl hsent⟩
    · refine ⟨hf.peer_eq, Or.inr ?_⟩
      rcases List.mem_cons.1 hd' with rfl | hd'
      · obtain ⟨d'', hd'', hforwards'⟩ := hf.forwards hlevel hbranch hforwards
        exact ⟨d'', List.mem_append_left _ hd'', hforwards'⟩
      · exact ⟨d', List.mem_append_right _ hd', hforwards⟩
  send s m task branch' b ds v log ht _ _ h := by
    refine ⟨h.peer_eq, ?_⟩
    rcases h.somewhere with hsent | ⟨d, hd, hforwards⟩
    · exact Or.inl (hsent.append s)
    · rcases List.mem_cons.1 hd with rfl | hd
      · obtain ⟨rfl, he⟩ := hforwards
        left
        refine ⟨s, List.mem_append_right _ (List.mem_singleton_self s), ht.target_eq, ?_⟩
        rw [ht.letter_eq]
        exact he
      · exact Or.inr ⟨d, hd, hforwards⟩
  share s task path b ds v log ht h := by
    refine ⟨h.peer_eq, ?_⟩
    rcases h.somewhere with hsent | ⟨d, hd, hforwards⟩
    · exact Or.inl (hsent.append s)
    · rcases List.mem_cons.1 hd with rfl | hd
      · exact hforwards.elim
      · exact Or.inr ⟨d, List.mem_cons_of_mem _ hd, hforwards⟩
  take c ds v v' log hc ht h := ⟨ht.peer_eq.trans h.peer_eq, h.somewhere⟩

namespace Node

variable {ω : Type} {n : Node} {desk : Desk ω} {w : ω} {r : Errand} {e : Entry} {branch : Key}

/-- **Messages go toward the branch of their entries.**  What a node sends in a cycle toward a
subtree has entries that it does not own, and goes toward the branch at the level of their keys;
only a peer that is no super peer sends its own requests toward the root instead. -/
theorem directed_of_cycle (hn : n.Sound []) (hdesk : desk.Makes Call.Encodable) :
    ∀ s ∈ (cycle desk.router (n, [], w)).2.1, s.letter.Directed n.peer := by
  have hstart : Directs n.peer (Upholds.startingDuties n) { n.view with queued := 0 } [] := by
    refine ⟨rfl, List.forall_mem_append.2 ⟨List.forall_mem_map.2 fun _ _ => trivial, ?_⟩, by simp⟩
    exact List.forall_mem_cons.2 ⟨trivial, List.forall_mem_singleton.2 trivial⟩
  exact ((Directs.upholds n.peer).cycle (s := (n, [], w)) hdesk hn hstart).holds.letters

/-- **Entries that are not owned are sent.**  An entry of a waiting request that the node splits is
sent in the cycle toward the branch at the level of its key. -/
theorem forwarded_of_cycle (hn : n.Sound []) (hdesk : desk.Makes Call.Encodable)
    (hr : r ∈ n.errands) (hsplit : r.IsSplitBy n.peer) (he : e ∈ r.kept)
    (howns : n.peer.path.owns e.key = false)
    (hbranch : n.peer.path.branchAt? (n.peer.path.levelOf e.key) = some branch) :
    SentToward (cycle desk.router (n, [], w)).2.1 branch e := by
  have hlevel := (owns_eq_false_iff _ _).1 howns
  obtain ⟨q, hq, rfl⟩ := List.mem_map.1 hr
  have hserve : .serve q.parent (n.errand q) ∈ Upholds.startingDuties n :=
    List.mem_append_left _ (List.mem_map.2 ⟨q, hq, rfl⟩)
  have hstart : Forwards n.peer branch e (Upholds.startingDuties n) { n.view with queued := 0 }
      [] := ⟨rfl, Or.inr ⟨_, hserve, hsplit, he⟩⟩
  have hdone := ((Forwards.upholds hlevel hbranch).cycle (s := (n, [], w)) hdesk hn hstart).holds
  rcases hdone.somewhere with hsent | ⟨d, hd, -⟩
  · exact hsent
  · rw [List.map_nil] at hd
    exact absurd hd List.not_mem_nil

end Node

/-! ### Chains of hops -/

/-- Some peers, and which of the others each of them was told of, in order. -/
structure Overlay (ι : Type) where
  /-- The peers. -/
  peer : ι → LocalPeer
  /-- Whom a peer was told of. -/
  heard : ι → List ι

namespace Overlay

variable {ι : Type} {O : Overlay ι} {K : Key} {i j : ι} {is : List ι} {p : Neighbour}
  {r : Resolution} {level : Nat}

/-- A peer as others know it, with its true path. -/
def neighbour (O : Overlay ι) (i : ι) : Neighbour :=
  ⟨(O.peer i).info, (O.peer i).path⟩

/-- The table of a peer. -/
def table (O : Overlay ι) (i : ι) : RoutingTable :=
  (O.heard i).foldl (fun t j => (t.add (O.peer i) (O.neighbour j)).2) .empty

/-- What may come out when the message for a key is resolved at a peer. -/
def Resolves (O : Overlay ι) (K : Key) (i : ι) (r : Resolution) : Prop :=
  ∃ branch choose, (O.peer i).path.branchAt? ((O.peer i).path.levelOf K) = some branch ∧
    RoutingTable.IsChoice choose ∧ (O.table i).resolve (O.peer i) choose branch = r

/-- A peer that does not own a key sends the message for it to another peer. -/
structure Hop (O : Overlay ι) (K : Key) (i j : ι) : Prop where
  not_owns : (O.peer i).path.owns K = false
  resolves : O.Resolves K i (.remote (O.neighbour j))

/-- A peer owns a key, or knows nobody at the level of the key. -/
def Ends (O : Overlay ι) (K : Key) (i : ι) : Prop :=
  (O.peer i).path.owns K = true ∨ O.Resolves K i .unreachable

/-- The number of leading bits that the path of a peer shares with a key. -/
def shared (O : Overlay ι) (K : Key) (i : ι) : Nat :=
  (O.peer i).path.commonLength K

/-- A peer at a level of a table is one that the owner was told of. -/
theorem mem_table (h : p ∈ (O.table i).atLevel level) :
    ∃ j, p = O.neighbour j ∧ RoutingTable.placement (O.peer i) p = .level level := by
  suffices hfrom : ∀ (js : List ι) (t : RoutingTable),
      p ∈ (js.foldl (fun t j => (t.add (O.peer i) (O.neighbour j)).2) t).atLevel level →
        p ∈ t.atLevel level ∨
          ∃ j, p = O.neighbour j ∧ RoutingTable.placement (O.peer i) p = .level level from
    (hfrom _ _ h).resolve_left (by simp [RoutingTable.atLevel, RoutingTable.empty])
  intro js
  induction js with
  | nil => exact fun t ht => Or.inl ht
  | cons j js ih =>
    intro t ht
    rcases ih _ ht with ht | hj
    · rcases RoutingTable.mem_atLevel_add ht with ht | ⟨rfl, hplace⟩
      · exact Or.inl ht
      · exact Or.inr ⟨j, rfl, hplace⟩
    · exact Or.inr hj

/-- What the message for a key that is not owned may resolve to. -/
theorem resolves_iff (howns : (O.peer i).path.owns K = false) :
    O.Resolves K i r ↔
      ((O.table i).atLevel ((O.peer i).path.levelOf K) = [] ∧ r = .unreachable) ∨
        ∃ p ∈ (O.table i).atLevel ((O.peer i).path.levelOf K), r = .remote p := by
  obtain ⟨branch, hbranch⟩ := Key.exists_branch_of_not_owns howns
  have hresolutions := (O.table i).resolutions_branch hbranch
  constructor
  · rintro ⟨branch', choose, hbranch', hchoose, rfl⟩
    obtain rfl : branch' = branch := Option.some.inj (hbranch'.symm.trans hbranch)
    rw [RoutingTable.resolve, hresolutions]
    split
    · obtain ⟨r, hr, hchosen⟩ := hchoose [.unreachable] (by simp)
      obtain rfl := List.mem_singleton.1 hr
      exact Or.inl ⟨‹_›, by rw [hchosen]; rfl⟩
    · rename_i hne
      obtain ⟨r, hr, hchosen⟩ := hchoose (((O.table i).atLevel _).map .remote)
        (by simpa using hne)
      obtain ⟨p, hp, rfl⟩ := List.mem_map.1 hr
      exact Or.inr ⟨p, hp, by rw [hchosen]; rfl⟩
  · -- a choice that takes the wanted candidate wherever it is one
    intro hr
    let choose (rs : List Resolution) : Option Resolution := if r ∈ rs then some r else rs.head?
    have hchoose : RoutingTable.IsChoice choose := by
      intro rs hrs
      by_cases hmem : r ∈ rs
      · exact ⟨r, hmem, if_pos hmem⟩
      · obtain ⟨a, rest, rfl⟩ := List.exists_cons_of_ne_nil hrs
        exact ⟨a, List.mem_cons_self .., if_neg hmem⟩
    refine ⟨branch, choose, hbranch, hchoose, ?_⟩
    have hmem : r ∈ (O.table i).resolutions (O.peer i) branch := by
      rw [hresolutions]
      rcases hr with ⟨hnil, rfl⟩ | ⟨p, hp, rfl⟩
      · rw [if_pos hnil]
        exact List.mem_singleton_self _
      · rw [if_neg (List.ne_nil_of_mem hp)]
        exact List.mem_map_of_mem hp
    rw [RoutingTable.resolve, show choose _ = some r from if_pos hmem]
    rfl

/-- The message for a key that is not owned goes to nobody or to a peer that shares more bits with
the key. -/
theorem progress (howns : (O.peer i).path.owns K = false) (h : O.Resolves K i r) :
    r = .unreachable ∨ ∃ j, r = .remote (O.neighbour j) ∧
      (O.peer j).info.id ≠ (O.peer i).info.id ∧ O.shared K i < O.shared K j := by
  rcases (resolves_iff howns).1 h with ⟨-, rfl⟩ | ⟨p, hp, rfl⟩
  · exact Or.inl rfl
  · obtain ⟨j, rfl, hplace⟩ := mem_table hp
    exact Or.inr ⟨j, rfl, (RoutingTable.placement_eq_level hplace).1,
      RoutingTable.commonLength_lt_of_placement howns hplace⟩

/-- Something comes out of the message for a key. -/
theorem ends_or_hop (O : Overlay ι) (K : Key) (i : ι) : O.Ends K i ∨ ∃ j, O.Hop K i j := by
  cases howns : (O.peer i).path.owns K with
  | true => exact Or.inl (Or.inl howns)
  | false =>
    cases hlevel : (O.table i).atLevel ((O.peer i).path.levelOf K) with
    | nil => exact Or.inl (Or.inr ((resolves_iff howns).2 (Or.inl ⟨hlevel, rfl⟩)))
    | cons p ps =>
      have hp : p ∈ (O.table i).atLevel ((O.peer i).path.levelOf K) := by
        rw [hlevel]
        exact List.mem_cons_self ..
      obtain ⟨j, rfl, -⟩ := mem_table hp
      exact Or.inr ⟨j, howns, (resolves_iff howns).2 (Or.inr ⟨_, hp, rfl⟩)⟩

/-- A hop leads to a peer that shares more bits with the key. -/
theorem Hop.shared_lt (h : O.Hop K i j) : O.shared K i < O.shared K j := by
  rcases (resolves_iff h.not_owns).1 h.resolves with ⟨-, hr⟩ | ⟨p, hp, hr⟩
  · cases hr
  · obtain ⟨j', -, hplace⟩ := mem_table hp
    rw [← Resolution.remote.inj hr] at hplace
    exact RoutingTable.commonLength_lt_of_placement h.not_owns hplace

theorem shared_le (O : Overlay ι) (K : Key) (i : ι) : O.shared K i ≤ K.length := by
  rw [shared, Key.commonLength, commonPrefixLength_comm]
  exact Key.commonPrefixLength_le_left ..

/-- Along a chain of hops the shared bits grow by one with every hop. -/
theorem shared_add_length_le (h : List.IsChain (O.Hop K) (i :: is)) :
    O.shared K i + is.length ≤ K.length := by
  induction is generalizing i with
  | nil => exact O.shared_le K i
  | cons j is ih =>
    obtain ⟨hhop, hrest⟩ := List.isChain_cons_cons.1 h
    have hlt := hhop.shared_lt
    have hle := ih hrest
    rw [List.length_cons]
    omega

/-- A chain of hops visits no peer twice. -/
theorem nodup_of_isChain (h : List.IsChain (O.Hop K) is) : is.Nodup := by
  have hshared : List.IsChain (fun i j => O.shared K i < O.shared K j) is :=
    h.imp fun _ _ => Hop.shared_lt
  have htrans : IsTrans ι fun i j => O.shared K i < O.shared K j := ⟨fun _ _ _ => Nat.lt_trans⟩
  refine (List.isChain_iff_pairwise.1 hshared).imp fun hlt heq => ?_
  rw [heq] at hlt
  exact Nat.lt_irrefl _ hlt

/-- An endless journey of hops comes to its end after no more hops than the key has bits. -/
theorem exists_ends {f : Nat → ι} (h : ∀ k, O.Ends K (f k) ∨ O.Hop K (f k) (f (k + 1))) :
    ∃ k ≤ K.length, O.Ends K (f k) := by
  by_contra hnone
  have hhop : ∀ k ≤ K.length, O.Hop K (f k) (f (k + 1)) := fun k hk =>
    (h k).resolve_left fun hends => hnone ⟨k, hk, hends⟩
  have hgrows : ∀ k ≤ K.length, k ≤ O.shared K (f k) := by
    intro k
    induction k with
    | zero => exact fun _ => Nat.zero_le _
    | succ k ih =>
      intro hk
      have hlt := (hhop k (Nat.le_of_succ_le hk)).shared_lt
      exact Nat.succ_le_of_lt (Nat.lt_of_le_of_lt (ih (Nat.le_of_succ_le hk)) hlt)
  -- the last hop would lead to a peer that shares more bits than there are
  have hlt := (hhop K.length (Nat.le_refl _)).shared_lt
  have hle := O.shared_le K (f (K.length + 1))
  exact absurd (hgrows K.length (Nat.le_refl _)) (by omega)

/-- **Greedy forwarding makes progress and comes to an end.**  For some peers at fixed paths, whose
tables were filled with the true paths of others in any order, and for every key:

* A node at one of the peers sends an entry under the key toward the branch at the level of the key
  (or toward the root, if it is no super peer and the request is its own), and it does send an entry
  of a batch that it splits and does not own.
* Whatever is chosen among several peers, the message comes to nobody or to another peer that shares
  more bits with the key.
* A chain of hops visits no peer twice and has no more hops than the key has bits.
* Wherever the message goes on and on, it comes to a peer that owns the key or knows nobody at its
  level after no more hops than the key has bits. -/
theorem forwarding {ω : Type} (O : Overlay ι) (K : Key) :
    (∀ (i : ι) (n : Node) (desk : Desk ω) (w : ω), n.Sound [] → n.peer = O.peer i →
      desk.Makes Call.Encodable →
        let log := (Node.cycle desk.router (n, [], w)).2.1
        (∀ s ∈ log, ∀ branch, s.letter.target = .toward branch →
          (branch = .root ∧ (O.peer i).isSuperPeer = false) ∨
            ∀ e ∈ s.letter.entries, e.key = K → (O.peer i).path.owns K = false ∧
              (O.peer i).path.branchAt? ((O.peer i).path.levelOf K) = some branch) ∧
        ∀ r ∈ n.errands, r.IsSplitBy (O.peer i) → ∀ e ∈ r.kept, e.key = K →
          (O.peer i).path.owns K = false → ∃ branch,
            (O.peer i).path.branchAt? ((O.peer i).path.levelOf K) = some branch ∧
              SentToward log branch e) ∧
    (∀ i r, (O.peer i).path.owns K = false → O.Resolves K i r →
      r = .unreachable ∨ ∃ j, r = .remote (O.neighbour j) ∧
        (O.peer j).info.id ≠ (O.peer i).info.id ∧ O.shared K i < O.shared K j) ∧
    (∀ i is, List.IsChain (O.Hop K) (i :: is) → (i :: is).Nodup ∧ is.length ≤ K.length) ∧
    (∀ i, O.Ends K i ∨ ∃ j, O.Hop K i j) ∧
    ∀ f : Nat → ι, (∀ k, O.Ends K (f k) ∨ O.Hop K (f k) (f (k + 1))) →
      ∃ k ≤ K.length, O.Ends K (f k) := by
  refine ⟨fun i n desk w hn hpeer hdesk => ?_, fun i r => progress, fun i is h => ?_,
    O.ends_or_hop K, fun f => exists_ends⟩
  · rw [← hpeer]
    refine ⟨fun s hs branch htarget => ?_, fun r hr hsplit e he hkey howns => ?_⟩
    · refine (Node.directed_of_cycle hn hdesk s hs branch htarget).imp_right fun h e he hkey => ?_
      rw [← hkey]
      exact h e he
    · obtain ⟨branch, hbranch⟩ := Key.exists_branch_of_not_owns howns
      subst hkey
      exact ⟨branch, hbranch, Node.forwarded_of_cycle hn hdesk hr hsplit he howns hbranch⟩
  · refine ⟨nodup_of_isChain h, ?_⟩
    have hle := shared_add_length_le h
    omega

/-- Three peers in a row, each of which heard of the next one only. -/
def row : Overlay Nat where
  peer i := { Sample.peer ([⟨[false]⟩, ⟨[true, false]⟩, ⟨[true, true]⟩].getD i .root) with
    info := ⟨⟨["a", "b", "c"].getD i ""⟩, "localhost:1"⟩ }
  heard i := if i < 2 then [i + 1] else []

/-- An entry that the first peer of the row gets goes to the last one in two hops. -/
theorem forwarding_of_row :
    let K : Key := ⟨[true, true]⟩
    let e := Sample.entry "e" K
    let quiet : Desk Unit := fun _ _ w => ([], w)
    let insert : Call := .submit ⟨.insert, ⟨some [e], none, none⟩, false, some (⟨"parent"⟩, false)⟩
    (∃ n, Node.openAt (row.peer 0) (.ofBits 8) 0 .root .empty = .ok n ∧
      SentToward (quiet.run [.call insert, .cycle] (n, [], ())).2.1 ⟨[true]⟩ e) ∧
    row.shared K 0 < row.shared K 1 ∧
    List.IsChain (row.Hop K) [0, 1, 2] ∧ [0, 1, 2].Nodup ∧
    ∃ k ≤ 2, row.Ends K k := by
  intro K e quiet insert
  obtain ⟨hsends, hresolves, hchains, -, hjourneys⟩ := forwarding row K (ω := Unit)
  have hhop (i : Nat) (howns : (row.peer i).path.owns K = false)
      (hnext : row.neighbour (i + 1) ∈
        (row.table i).atLevel ((row.peer i).path.levelOf K)) : row.Hop K i (i + 1) :=
    ⟨howns, (resolves_iff howns).2 (Or.inr ⟨_, hnext, rfl⟩)⟩
  have hfirst : row.Hop K 0 1 := hhop 0 (by decide) (by decide)
  have hsecond : row.Hop K 1 2 := hhop 1 (by decide) (by decide)
  have hchain : List.IsChain (row.Hop K) [0, 1, 2] := by
    simp [hfirst, hsecond]
  refine ⟨?_, ?_, hchain, (hchains 0 [1, 2] hchain).1, ?_⟩
  · obtain ⟨n, hopen, hsound, -, hpeer, -⟩ := Node.openAt_sound rfl Volume.vacant_empty
      (row.peer 0) (.ofBits 8) 0
    obtain ⟨_, n', message, hrun, hy⟩ := hsound.submitTo
      (r := ⟨.insert, ⟨some [e], none, none⟩, false, some (⟨"parent"⟩, false)⟩) rfl
    have hpeer' : n'.peer = row.peer 0 := (congrArg View.peer hy.view_eq).trans hpeer
    have hwaits : ⟨.insert, .peer message ⟨"parent"⟩ false, [e], false⟩ ∈ n'.errands := by
      have hqueued : (n'.errands : Multiset Errand) = _ ::ₘ n.view.queued :=
        congrArg View.queued hy.view_eq
      rw [← Multiset.mem_coe, hqueued]
      exact Multiset.mem_cons_self ..
    have htake : n.take insert = n' := by
      rw [Node.take, hrun]
    obtain ⟨-, hsent⟩ := hsends 0 n' quiet () hy.sound hpeer' fun _ _ _ _ hc =>
      absurd hc List.not_mem_nil
    obtain ⟨branch, hbranch, hsent⟩ := hsent _ hwaits rfl e (List.mem_singleton_self e) rfl
      (by decide)
    obtain rfl : branch = ⟨[true]⟩ := Option.some.inj (hbranch.symm.trans (by decide))
    have hran : quiet.run [.call insert, .cycle] (n, [], ()) =
        Node.cycle quiet.router (n', [], ()) := by
      rw [← htake]
      rfl
    exact ⟨n, hopen, hran ▸ hsent⟩
  · rcases hresolves 0 _ (by decide) hfirst.resolves with h | ⟨j, hj, -, hlt⟩
    · cases h
    · have hnext : row.shared K j = row.shared K 1 :=
        congrArg (·.path.commonLength K) (Resolution.remote.inj hj).symm
      rwa [hnext] at hlt
  · -- the journey stays where it has come to its end
    obtain ⟨k, hk, hend⟩ := hjourneys (min · 2) fun k => by
      rcases k with _ | _ | k
      · exact Or.inr hfirst
      · exact Or.inr hsecond
      · left
        rw [Nat.min_eq_right (by omega)]
        exact Or.inl (by decide)
    exact ⟨min k 2, Nat.min_le_right .., hend⟩

end Overlay

end TrieOverlay
