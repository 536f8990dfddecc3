import TrieOverlay.Proofs.Routing.Filing

/-!
# What the announcements leave in a table

The only trace of a peer in a table is that of its last accepted announcement.  The *calls* of a
sequence of acts are the acts with their answers; `LastAccepted` singles out the last call that
filed a peer of an id, and what was called after it:

* `RoutingTable.peers_add_perm`: an accepted announcement takes the peer out of the table and puts
  the new reference in once.
* `RoutingTable.Records.act`: one act keeps the table true to the calls.
* `RoutingTable.holds_last_accepted`: **a table holds each peer once, where its last accepted
  announcement put it.**
-/

namespace TrieOverlay

namespace RoutingTable

variable {t : RoutingTable} {self : LocalPeer} {p q : Neighbour} {place : Placement} {id : PeerId}

/-! ### All peers of a table -/

/-- The peers of a table are those at its places. -/
theorem mem_peers_iff : q ∈ t.peers ↔ ∃ place, q ∈ t.peersAt place := by
  rw [peers, List.mem_append, List.mem_flatten]
  constructor
  · rintro (⟨level, hlevel, hq⟩ | hq)
    · obtain ⟨n, hn⟩ := List.mem_iff_getElem?.1 hlevel
      refine ⟨.level n, ?_⟩
      rwa [peersAt, atLevel, hn]
    · exact ⟨.replica, hq⟩
  · rintro ⟨n | _ | _, hq⟩
    · rw [peersAt, atLevel] at hq
      cases hlevel : t.levels[n]? with
      | none => simp [hlevel] at hq
      | some level =>
        rw [hlevel] at hq
        exact Or.inl ⟨level, List.mem_of_getElem? hlevel, hq⟩
    · exact Or.inr hq
    · cases hq

theorem peers_remove (t : RoutingTable) (id : PeerId) :
    (t.remove id).peers = t.peers.filter (·.info.id ≠ id) := by
  rw [peers, remove, peers, List.filter_append, List.filter_flatten]

/-- One more at the end of one of several lists is one more in all of them. -/
theorem flatten_modify_concat_perm {α : Type} (ls : List (List α)) {n : Nat} (h : n < ls.length)
    (a : α) : (ls.modify n (· ++ [a])).flatten.Perm (a :: ls.flatten) := by
  induction ls generalizing n with
  | nil => cases h
  | cons l ls ih =>
    cases n with
    | zero =>
      rw [List.modify_zero_cons, List.flatten_cons, List.append_assoc]
      exact List.perm_middle
    | succ n =>
      rw [List.modify_succ_cons, List.flatten_cons]
      exact ((ih (Nat.lt_of_succ_lt_succ h)).append_left l).trans List.perm_middle

theorem peers_file_perm (t : RoutingTable) (n : Nat) (p : Neighbour) :
    (t.file n p).peers.Perm (p :: t.peers) := by
  have hlength : n < (t.levels ++ List.replicate (n + 1 - t.levels.length) []).length := by
    rw [List.length_append, List.length_replicate]
    omega
  have hlevels := flatten_modify_concat_perm _ hlength p
  rw [List.flatten_append, List.flatten_replicate_nil, List.append_nil] at hlevels
  exact hlevels.append_right t.replicas

/-- An accepted announcement leaves one reference to the peer, the new one. -/
theorem peers_add_perm (h : placement self p ≠ .ignored) :
    (t.add self p).2.peers.Perm (p :: t.peers.filter (·.info.id ≠ p.info.id)) := by
  rw [← peers_remove]
  simp only [add]
  split
  · exact absurd ‹_› h
  · rw [peers, ← List.append_assoc]
    exact List.perm_append_singleton p _
  · exact peers_file_perm _ _ p

/-! ### The peer closest to the root -/

theorem closer_eq_or (p q : Neighbour) : closer p q = p ∨ closer p q = q := by
  rw [closer]
  split
  · exact Or.inr rfl
  · exact Or.inl rfl

theorem foldl_closer_mem (ps : List Neighbour) (p : Neighbour) : ps.foldl closer p ∈ p :: ps := by
  induction ps generalizing p with
  | nil => exact List.mem_singleton_self p
  | cons q ps ih =>
    rcases List.mem_cons.1 (ih (closer p q)) with hfirst | hrest
    · rw [List.foldl_cons, hfirst]
      rcases closer_eq_or p q with heq | heq <;> simp [heq]
    · exact List.mem_cons_of_mem _ (List.mem_cons_of_mem _ hrest)

theorem length_foldl_closer_le (ps : List Neighbour) (p : Neighbour) :
    ∀ q ∈ p :: ps, (ps.foldl closer p).path.length ≤ q.path.length := by
  induction ps generalizing p with
  | nil => simp
  | cons q ps ih =>
    have hcloser : (closer p q).path.length ≤ p.path.length ∧
        (closer p q).path.length ≤ q.path.length := by
      rw [closer]
      split <;> omega
    obtain ⟨hfirst, hrest⟩ := List.forall_mem_cons.1 (ih (closer p q))
    exact List.forall_mem_cons.2 ⟨Nat.le_trans hfirst hcloser.1,
      List.forall_mem_cons.2 ⟨Nat.le_trans hfirst hcloser.2, hrest⟩⟩

theorem closestToRoot?_eq_none_iff : t.closestToRoot? = none ↔ t.peers = [] := by
  rw [closestToRoot?]
  split <;> simp [*]

theorem closestToRoot?_eq_some (h : t.closestToRoot? = some p) :
    p ∈ t.peers ∧ ∀ q ∈ t.peers, p.path.length ≤ q.path.length := by
  rw [closestToRoot?] at h
  split at h
  · cases h
  · rename_i q ps hpeers
    obtain rfl := Option.some.inj h
    rw [hpeers]
    exact ⟨foldl_closer_mem ps q, length_foldl_closer_le ps q⟩

/-! ### Calls -/

/-- What an act is answered; only an announcement is answered with a place. -/
def Act.answer (self : LocalPeer) (t : RoutingTable) : Act → Placement
  | .add p => (t.add self p).1
  | _ => .ignored

/-- An act with its answer. -/
structure Call where
  /-- The act. -/
  act : Act
  /-- The place that it returned. -/
  answer : Placement
deriving DecidableEq, Repr

/-- Some acts, each with what it is answered at its time. -/
def callsOf (self : LocalPeer) (t : RoutingTable) : List Act → List Call
  | [] => []
  | a :: acts => ⟨a, a.answer self t⟩ :: callsOf (a.peer self) (a.table self t) acts

/-- Whether a call is an announcement of a peer that was not ignored. -/
def Call.Accepts (c : Call) (id : PeerId) : Prop :=
  match c with
  | ⟨.add p, place⟩ => place ≠ .ignored ∧ p.info.id = id
  | _ => False

instance : (c : Call) → (id : PeerId) → Decidable (c.Accepts id)
  | ⟨.add p, place⟩, id => inferInstanceAs (Decidable (place ≠ .ignored ∧ p.info.id = id))
  | ⟨.remove _, _⟩, _ => .isFalse not_false
  | ⟨.setPath _, _⟩, _ => .isFalse not_false

/-- The last announcement of a peer id that was not ignored: the peer, the place that was returned,
and what was called later. -/
structure LastAccepted (calls : List Call) (id : PeerId) (p : Neighbour) (place : Placement)
    (later : List Call) : Prop where
  accepted : (Call.mk (.add p) place).Accepts id
  called : ∃ earlier, calls = earlier ++ ⟨.add p, place⟩ :: later
  last : ∀ c ∈ later, ¬ c.Accepts id

/-- The peer of the last accepted announcement, if it was not removed since. -/
def Stands (calls : List Call) (q : Neighbour) (place : Placement) : Prop :=
  ∃ later, LastAccepted calls q.info.id q place later ∧ ∀ c ∈ later, c.act ≠ .remove q.info.id

variable {calls later : List Call} {c : Call}

/-- There is one last accepted announcement at most. -/
theorem LastAccepted.unique {q : Neighbour} {place' : Placement} {later' : List Call}
    (h : LastAccepted calls id p place later) (h' : LastAccepted calls id q place' later') :
    p = q ∧ place = place' := by
  obtain ⟨earlier, hcalls⟩ := h.called
  obtain ⟨earlier', hcalls'⟩ := h'.called
  rw [hcalls] at hcalls'
  rcases List.append_eq_append_iff.1 hcalls' with ⟨between, -, hlater⟩ | ⟨between, -, hlater⟩
  · cases between with
    | nil =>
      obtain ⟨hact, -⟩ := List.cons.inj hlater
      simpa using hact
    | cons c between =>
      -- the other one was called later
      obtain ⟨rfl, rfl⟩ := List.cons.inj hlater
      exact absurd h'.accepted (h.last _ (List.mem_append_right _ (List.mem_cons_self ..)))
  · cases between with
    | nil =>
      obtain ⟨hact, -⟩ := List.cons.inj hlater
      simpa [eq_comm] using hact
    | cons c between =>
      obtain ⟨rfl, rfl⟩ := List.cons.inj hlater
      exact absurd h.accepted (h'.last _ (List.mem_append_right _ (List.mem_cons_self ..)))

/-- One more call: if it accepts a peer of the id it is the last, and otherwise it comes later than
the last. -/
theorem lastAccepted_concat :
    LastAccepted (calls ++ [c]) id p place later ↔
      (c.Accepts id ∧ c = ⟨.add p, place⟩ ∧ later = []) ∨
        (¬ c.Accepts id ∧ ∃ later', later = later' ++ [c] ∧
          LastAccepted calls id p place later') := by
  constructor
  · rintro ⟨haccepted, ⟨earlier, hcalls⟩, hlast⟩
    rcases List.eq_nil_or_concat later with rfl | ⟨later', c', rfl⟩
    · obtain ⟨rfl, hc⟩ := List.append_inj' hcalls rfl
      obtain rfl := List.singleton_inj.1 hc
      exact Or.inl ⟨haccepted, rfl, rfl⟩
    · rw [List.concat_eq_append] at hcalls hlast ⊢
      rw [← List.cons_append, ← List.append_assoc] at hcalls
      obtain ⟨rfl, hc⟩ := List.append_inj' hcalls rfl
      obtain rfl := List.singleton_inj.1 hc
      rw [List.forall_mem_append, List.forall_mem_singleton] at hlast
      exact Or.inr ⟨hlast.2, later', rfl, haccepted, ⟨earlier, rfl⟩, hlast.1⟩
  · rintro (⟨hc, rfl, rfl⟩ | ⟨hc, later', rfl, haccepted, ⟨earlier, rfl⟩, hlast⟩)
    · exact ⟨hc, ⟨calls, rfl⟩, fun _ h => absurd h List.not_mem_nil⟩
    · refine ⟨haccepted, ⟨earlier, by simp⟩, ?_⟩
      rw [List.forall_mem_append, List.forall_mem_singleton]
      exact ⟨hlast, hc⟩

/-- A call decides about the peers of an id if it accepts one or removes the id, and otherwise
leaves them as they are. -/
theorem stands_concat :
    Stands (calls ++ [c]) q place ↔
      (c.Accepts q.info.id ∧ c = ⟨.add q, place⟩) ∨
        (¬ c.Accepts q.info.id ∧ c.act ≠ .remove q.info.id ∧ Stands calls q place) := by
  constructor
  · rintro ⟨later, hlast, hkept⟩
    rcases lastAccepted_concat.1 hlast with ⟨hc, heq, -⟩ | ⟨hc, later', rfl, hlast'⟩
    · exact Or.inl ⟨hc, heq⟩
    · rw [List.forall_mem_append, List.forall_mem_singleton] at hkept
      exact Or.inr ⟨hc, hkept.2, later', hlast', hkept.1⟩
  · rintro (⟨hc, heq⟩ | ⟨hc, hkept, later', hlast, hkept'⟩)
    · exact ⟨[], lastAccepted_concat.2 (Or.inl ⟨hc, heq, rfl⟩), by simp⟩
    · refine ⟨later' ++ [c], lastAccepted_concat.2 (Or.inr ⟨hc, later', rfl, hlast⟩), ?_⟩
      rw [List.forall_mem_append, List.forall_mem_singleton]
      exact ⟨hkept', hkept⟩

/-! ### A table and its calls -/

/-- A table that is what the calls made of it. -/
structure Records (here : LocalPeer) (t : RoutingTable) (calls : List Call) : Prop where
  nodup : (t.peers.map (·.info.id)).Nodup
  notLocal : here.info.id ∉ t.peers.map (·.info.id)
  mem_iff : ∀ q place, q ∈ t.peersAt place ↔ Stands calls q place

theorem records_empty (self : LocalPeer) : Records self .empty [] where
  nodup := List.nodup_nil
  notLocal := List.not_mem_nil
  mem_iff q place := by
    refine iff_of_false (not_mem_peersAt_empty q place) ?_
    rintro ⟨later, ⟨-, ⟨earlier, hcalls⟩, -⟩, -⟩
    simp at hcalls

theorem answer_add (self : LocalPeer) (t : RoutingTable) (p : Neighbour) :
    (t.add self p).1 = placement self p := by
  simp only [add]
  split <;> simp [*]

theorem Records.remove (h : Records self t calls) (id : PeerId) :
    Records self (t.remove id) (calls ++ [⟨.remove id, .ignored⟩]) where
  nodup := by
    rw [peers_remove]
    exact h.nodup.sublist (List.filter_sublist.map _)
  notLocal := by
    rw [peers_remove]
    exact fun hmem => h.notLocal ((List.filter_sublist.map _).subset hmem)
  mem_iff q place := by
    rw [mem_peersAt_remove, h.mem_iff, stands_concat]
    simp [Call.Accepts, and_comm, eq_comm]

theorem Records.add (h : Records self t calls) (hplace : placement self p ≠ .ignored) :
    Records self (t.add self p).2 (calls ++ [⟨.add p, placement self p⟩]) where
  nodup := by
    have hperm := (peers_add_perm (t := t) hplace).map (·.info.id)
    rw [hperm.nodup_iff, List.map_cons, List.nodup_cons]
    refine ⟨fun hmem => ?_, h.nodup.sublist (List.filter_sublist.map _)⟩
    obtain ⟨q, hq, hid⟩ := List.mem_map.1 hmem
    exact absurd hid (by simpa using (List.mem_filter.1 hq).2)
  notLocal := by
    have hperm := (peers_add_perm (t := t) hplace).map (·.info.id)
    rw [hperm.mem_iff, List.map_cons, List.mem_cons, not_or]
    refine ⟨fun hself => hplace ?_, fun hmem => ?_⟩
    · simp [placement, hself]
    · exact h.notLocal ((List.filter_sublist.map _).subset hmem)
  mem_iff q place := by
    rw [mem_peersAt_add hplace, h.mem_iff, stands_concat]
    by_cases hid : p.info.id = q.info.id
    · have haccepts : (Call.mk (.add p) (placement self p)).Accepts q.info.id := ⟨hplace, hid⟩
      simp [haccepts, hid, eq_comm]
    · have hnot : ¬ (Call.mk (.add p) (placement self p)).Accepts q.info.id := fun h => hid h.2
      have hne : q ≠ p := fun heq => hid (by rw [heq])
      simp [hnot, hne, Ne.symm hid]

/-- A call that is answered with no place and removes nobody leaves what stands. -/
theorem Records.idle (h : Records self t calls) (hanswer : c.answer = .ignored)
    (hkept : ∀ id, c.act ≠ .remove id) : Records self t (calls ++ [c]) where
  nodup := h.nodup
  notLocal := h.notLocal
  mem_iff q place := by
    have hnot : ¬ c.Accepts q.info.id := by
      obtain ⟨_ | _ | _, answer⟩ := c
      · exact fun haccepts => haccepts.1 hanswer
      · exact not_false
      · exact not_false
    rw [h.mem_iff, stands_concat]
    simp [hnot, hkept]

/-- One act keeps a table true to the calls. -/
theorem Records.act (h : Records self t calls) (a : Act) :
    Records (a.peer self) (a.table self t) (calls ++ [⟨a, a.answer self t⟩]) := by
  cases a with
  | add p =>
    by_cases hplace : placement self p = .ignored
    · rw [Act.table, add_eq_of_ignored hplace]
      exact h.idle ((answer_add self t p).trans hplace) fun _ => Act.noConfusion
    · rw [Act.answer, answer_add]
      exact h.add hplace
  | remove id => exact h.remove id
  | setPath path =>
    obtain ⟨hnodup, hlocal, hmem⟩ := h.idle (c := ⟨.setPath path, .ignored⟩) rfl
      fun _ => Act.noConfusion
    exact ⟨hnodup, hlocal, hmem⟩

/-- Whatever the acts, the table is what the calls made of it. -/
theorem Records.run (h : Records self t calls) (acts : List Act) :
    Records (peerAfter self acts) (tableAfter self t acts) (calls ++ callsOf self t acts) := by
  induction acts generalizing self t calls with
  | nil =>
    rw [callsOf, List.append_nil]
    exact h
  | cons a acts ih =>
    have hrest := ih (h.act a)
    rw [List.append_assoc, List.singleton_append] at hrest
    exact hrest

/-- **A table holds each peer once, where its last accepted announcement put it.**  Whatever peers
were announced and removed and however the path changed: no id occurs twice in the table, and that
of the local peer never; an id is there exactly if an announcement of it was accepted and it was not
removed after the last such one; the reference is then that of this announcement, at the place that
was returned; an announcement that is ignored changes nothing; and the peer closest to the root is
one with the shortest path, if there are any peers. -/
theorem holds_last_accepted (self : LocalPeer) (acts : List Act) :
    let here := peerAfter self acts
    let t := tableAfter self .empty acts
    let calls := callsOf self .empty acts
    (t.peers.map (·.info.id)).Nodup ∧ self.info.id ∉ t.peers.map (·.info.id) ∧
    (∀ id, id ∈ t.peers.map (·.info.id) ↔ ∃ p place later, LastAccepted calls id p place later ∧
      ∀ c ∈ later, c.act ≠ .remove id) ∧
    (∀ id p place later, LastAccepted calls id p place later →
      ∀ q ∈ t.peers, q.info.id = id → q = p ∧ q ∈ t.peersAt place) ∧
    (∀ p, (t.add here p).1 = .ignored → (t.add here p).2 = t) ∧
    (t.closestToRoot? = none ↔ t.peers = []) ∧
    ∀ p, t.closestToRoot? = some p →
      p ∈ t.peers ∧ ∀ q ∈ t.peers, p.path.length ≤ q.path.length := by
  intro here t calls
  have hrecords : Records here t calls := (records_empty self).run acts
  have hself : here.info = self.info := info_peerAfter self acts
  refine ⟨hrecords.nodup, hself ▸ hrecords.notLocal, fun id => ?_, ?_, ?_,
    closestToRoot?_eq_none_iff, fun p => closestToRoot?_eq_some⟩
  · constructor
    · intro hmem
      obtain ⟨q, hq, rfl⟩ := List.mem_map.1 hmem
      obtain ⟨place, hq⟩ := mem_peers_iff.1 hq
      obtain ⟨later, hstands⟩ := (hrecords.mem_iff q place).1 hq
      exact ⟨q, place, later, hstands⟩
    · rintro ⟨p, place, later, hlast, hkept⟩
      obtain ⟨-, rfl⟩ := hlast.accepted
      have hp : p ∈ t.peersAt place := (hrecords.mem_iff p place).2 ⟨later, hlast, hkept⟩
      exact List.mem_map_of_mem (mem_peers_iff.2 ⟨place, hp⟩)
  · rintro id p place later hlast q hq rfl
    obtain ⟨place', hq⟩ := mem_peers_iff.1 hq
    obtain ⟨later', hlast', -⟩ := (hrecords.mem_iff q place').1 hq
    obtain ⟨rfl, rfl⟩ := hlast'.unique hlast
    exact ⟨rfl, hq⟩
  · intro p hignored
    rw [answer_add] at hignored
    exact add_eq_of_ignored hignored

/-- One peer is announced twice, another one comes and goes, and after a change of path a third one
is ignored: the table has the first peer where its second announcement put it. -/
theorem holds_last_accepted_of_return :
    let self : LocalPeer := ⟨⟨⟨"local"⟩, "127.0.0.1:6100"⟩, ⟨[false, true]⟩, true⟩
    let a : Neighbour := ⟨⟨⟨"a"⟩, "127.0.0.1:6001"⟩, ⟨[true]⟩⟩
    let a' : Neighbour := ⟨⟨⟨"a"⟩, "127.0.0.1:6002"⟩, ⟨[false, false]⟩⟩
    let b : Neighbour := ⟨⟨⟨"b"⟩, "127.0.0.1:6003"⟩, ⟨[false, true]⟩⟩
    let c : Neighbour := ⟨⟨⟨"c"⟩, "127.0.0.1:6004"⟩, ⟨[true, true]⟩⟩
    let acts : List Act := [.add a, .add b, .add a', .remove ⟨"b"⟩, .setPath ⟨[true]⟩, .add c]
    let here := peerAfter self acts
    let t := tableAfter self .empty acts
    let later : List Call :=
      [⟨.remove ⟨"b"⟩, .ignored⟩, ⟨.setPath ⟨[true]⟩, .ignored⟩, ⟨.add c, .ignored⟩]
    LastAccepted (callsOf self .empty acts) ⟨"a"⟩ a' (.level 1) later ∧
      (a' ∈ t.peers ∧ a' ∈ t.peersAt (.level 1)) ∧
      ((t.add here c).1 = .ignored ∧ (t.add here c).2 = t) ∧
      t.closestToRoot? = some a' ∧ ∀ q ∈ t.peers, a'.path.length ≤ q.path.length := by
  intro self a a' b c acts here t later
  obtain ⟨-, -, hpresent, hplaced, hignored, -, hclosest⟩ := holds_last_accepted self acts
  have hlast : LastAccepted (callsOf self .empty acts) ⟨"a"⟩ a' (.level 1) later :=
    ⟨by decide, ⟨[⟨.add a, .level 0⟩, ⟨.add b, .replica⟩], by decide⟩, by decide⟩
  have hkept : ∀ c ∈ later, c.act ≠ .remove ⟨"a"⟩ := by decide
  obtain ⟨q, hq, hid⟩ := List.mem_map.1 ((hpresent ⟨"a"⟩).2 ⟨_, _, _, hlast, hkept⟩)
  obtain ⟨rfl, hplace⟩ := hplaced _ _ _ _ hlast q hq hid
  have hanswer : (t.add here c).1 = .ignored := by decide
  have hroot : t.closestToRoot? = some a' := by decide
  exact ⟨hlast, ⟨hq, hplace⟩, ⟨hanswer, hignored c hanswer⟩, hroot, (hclosest _ hroot).2⟩

end RoutingTable

end TrieOverlay
