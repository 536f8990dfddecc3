import Mathlib.Data.List.Forall2
import TrieOverlay.Proofs.Node.Desk
import TrieOverlay.Proofs.Node.Opening

/-!
# What is shared with the replicas

A peer shares with its replicas what it owns of the requests that peers delivered toward a subtree.
What was raised here would be shared too as far as it is owned, but at a peer whose path never
changed it is not: an update raises a request only for the entries that it moves out of the path,
and an outbound list has only entries that were sent elsewhere.

* `Outward`: what is sent, and what is in flight, a split would not keep here.
* `Shares`: what was shared and what the duties that are left will share make up a list that is
  known in advance.  `Shares.upholds` and `Shares.start` say that a cycle adds the owned parts of
  the delivered requests to it, and nothing else.
* `Node.foreign_of_run`: at a fixed path, what is in flight and what is put by stays foreign.
* `Node.quiet_of_replicas`: a node to which only replicas send shares nothing.
-/

namespace TrieOverlay

/-- What is shared: the change that is asked for, and the batch. -/
structure Share where
  /-- The change that is asked for. -/
  operation : Operation
  /-- The owned batch. -/
  batch : Batch

/-- Whether a peer that splits its own requests would keep none of some entries. -/
def LocalPeer.IsForeign (peer : LocalPeer) (es : List Entry) : Prop :=
  peer.isSuperPeer = true → ∀ e ∈ es, peer.path.owns e.key = false

/-- Whether a request is foreign if it was raised here. -/
def Errand.IsForeign (peer : LocalPeer) (r : Errand) : Prop :=
  r.origin = .here → peer.IsForeign r.entries

/-- What is shared of a request that is delivered, or that is foreign. -/
def Errand.shares (path : Key) (r : Errand) : List Share :=
  match r.origin with
  | .peer _ _ false => (r.batch.owned path).toList.map (⟨r.operation, ·⟩)
  | .here | .peer _ _ true => []

/-- What a duty, with what comes of it, will share. -/
def Duty.shares (path : Key) : Duty → List Share
  | serve _ r => r.shares path
  | apply task _ b true | share task _ b => [⟨task.operation, b⟩]
  | apply _ _ _ false | send _ _ _ | drop | retry | resend _ | merge => []

/-- Whether a duty of sending has only foreign entries. -/
def Duty.IsOutward (peer : LocalPeer) : Duty → Prop
  | send _ _ b => peer.IsForeign b.entries
  | serve _ _ | apply _ _ _ _ | share _ _ _ | drop | retry | resend _ | merge => True

/-- Whether only foreign requests come of a duty. -/
def Duty.RaisesForeign (peer : LocalPeer) : Duty → Prop
  | serve _ r => r.IsForeign peer
  | apply _ path _ _ => path = peer.path
  | share _ _ _ | send _ _ _ | drop | retry | resend _ | merge => True

/-- Whether a slip is one of a message to the replicas. -/
def Slip.isShared (s : Slip) : Bool :=
  s.letter.target = .replicas

/-- A slip of something that is shared. -/
def Slip.Posts (s : Slip) (p : Share) : Prop :=
  ∃ task path, task.operation = p.operation ∧ s.Tells .replicas task path p.batch

/-- Whether a call reports an outcome, lets time pass, or is a delivery. -/
def Call.IsDelivery : Call → Prop
  | submit r => r.Encodable ∧ r.remote ≠ none
  | report _ _ _ | wait _ => True

/-- Whether a call reports an outcome, lets time pass, or is a delivery of a replica. -/
def Call.IsFromReplica : Call → Prop
  | submit r => r.Encodable ∧ ∃ parent, r.remote = some (parent, true)
  | report _ _ _ | wait _ => True

/-- At a peer, what is being sent and what is in flight is foreign. -/
structure Outward (peer : LocalPeer) (ds : List Duty) (v : View) : Prop where
  peer_eq : v.peer = peer
  duties : ∀ d ∈ ds, d.IsOutward peer
  flying : ∀ m ∈ v.flying, peer.IsForeign m.entries

/-- At a peer, what was raised here and what is put by is foreign, and what was shared and what will
be shared are known. -/
structure Shares (peer : LocalPeer) (total : List Share) (ds : List Duty) (v : View)
    (log : List Slip) : Prop where
  outward : Outward peer ds v
  duties : ∀ d ∈ ds, d.RaisesForeign peer
  queued : ∀ r ∈ v.queued, r.IsForeign peer
  outbound : ∀ o, peer.IsForeign (v.list (.outbound o))
  posted : ∃ done, List.Forall₂ Slip.Posts (log.filter Slip.isShared) done ∧
    done ++ ds.flatMap (Duty.shares peer.path) = total

/-- At a peer, nothing was shared, and no request that waits will be. -/
structure Quiet (peer : LocalPeer) (ds : List Duty) (v : View) (log : List Slip) : Prop where
  shares : Shares peer [] ds v log
  queued : ∀ r ∈ v.queued, r.shares peer.path = []

namespace LocalPeer.IsForeign

variable {peer : LocalPeer} {es es' : List Entry}

theorem nil (peer : LocalPeer) : peer.IsForeign [] :=
  fun _ _ he => absurd he List.not_mem_nil

theorem mono (h : peer.IsForeign es) (hs : es' ⊆ es) : peer.IsForeign es' :=
  fun hsuper e he => h hsuper e (hs he)

theorem append (h : peer.IsForeign es) (h' : peer.IsForeign es') : peer.IsForeign (es ++ es') :=
  fun hsuper => List.forall_mem_append.2 ⟨h hsuper, h' hsuper⟩

theorem of_not_super (h : peer.isSuperPeer = false) (es : List Entry) : peer.IsForeign es :=
  fun hsuper => absurd (h.symm.trans hsuper) Bool.false_ne_true

/-- A super peer owns nothing of foreign entries. -/
theorem owned_eq_none {b : Batch} (h : peer.IsForeign b.entries) (hs : peer.isSuperPeer = true) :
    b.owned peer.path = none := by
  refine if_pos (List.filter_eq_nil_iff.2 fun e he => ?_)
  rw [h hs e he]
  exact Bool.false_ne_true

end LocalPeer.IsForeign

section

variable {peer : LocalPeer} {d : Duty} {ds : List Duty} {v v' : View}

/-- The parts at the levels are foreign. -/
theorem Duty.isOutward_of_mem_sends {task : Task} {b : Batch}
    (h : d ∈ Duty.sends task peer.path b) : d.IsOutward peer := by
  obtain ⟨i, branch, p, hi, -, hpart, rfl⟩ := Duty.mem_sends h
  intro _ e he
  rw [owns_eq_false_iff, Batch.levelOf_of_mem_partAt hpart he]
  exact hi

theorem Duty.flatMap_shares_sends (task : Task) (path : Key) (b : Batch) :
    (Duty.sends task path b).flatMap (Duty.shares path) = [] := by
  refine List.flatMap_eq_nil_iff.2 fun d hd => ?_
  obtain ⟨_, _, _, -, -, -, rfl⟩ := Duty.mem_sends hd
  rfl

/-- The messages that come of a duty are foreign. -/
theorem View.Fulfils.outward (hf : v.Fulfils d ds v') : ∀ d' ∈ ds, d'.IsOutward v.peer := by
  cases hf with
  | root _ hs => exact List.forall_mem_singleton.2 (.of_not_super hs _)
  | split _ _ =>
    refine List.forall_mem_append.2 ⟨fun d' => Duty.isOutward_of_mem_sends, ?_⟩
    exact List.forall_mem_map.2 fun _ _ => trivial
  | splitOther _ =>
    refine List.forall_mem_append.2 ⟨fun d' => Duty.isOutward_of_mem_sends, ?_⟩
    exact List.forall_mem_map.2 fun _ _ => trivial
  | @apply _ _ _ shared _ => cases shared <;> exact List.forall_mem_singleton.2 trivial
  | retry => exact List.forall_mem_map.2 fun _ _ => trivial
  | _ => simp [Duty.IsOutward]

/-- What comes of a duty shares what the duty was to share. -/
theorem View.Fulfils.shares_eq (hf : v.Fulfils d ds v') (hd : d.RaisesForeign v.peer) :
    ds.flatMap (Duty.shares v.peer.path) = d.shares v.peer.path := by
  cases hf with
  | nothing hhere _ => rw [Duty.shares, Errand.shares, hhere]; rfl
  | root hhere _ => rw [Duty.shares, Errand.shares, hhere]; rfl
  | @split parent r v hhere hs =>
    -- the owned part would be shared, but there is none
    rw [LocalPeer.IsForeign.owned_eq_none (b := r.batch) (hd hhere) hs, Duty.shares, Errand.shares,
      hhere, List.flatMap_append, Duty.flatMap_shares_sends]
    rfl
  | @splitOther parent r v message sender hother =>
    rw [Duty.shares, Errand.shares, hother, List.flatMap_append, Duty.flatMap_shares_sends]
    cases r.batch.owned v.peer.path <;> rfl
  | replica hother => rw [Duty.shares, Errand.shares, hother]; rfl
  | @apply _ _ _ shared _ => cases shared <;> rfl
  | _ => rfl

/-- Only foreign requests come of what comes of a duty. -/
theorem View.Fulfils.raisesForeign (hf : v.Fulfils d ds v') (hd : d.RaisesForeign v.peer)
    (houtbound : ∀ o, v.peer.IsForeign (v.list (.outbound o))) :
    ∀ d' ∈ ds, d'.RaisesForeign v.peer := by
  have hsends : ∀ task b, ∀ d' ∈ Duty.sends task v.peer.path b, d'.RaisesForeign v.peer := by
    intro task b d' hd'
    obtain ⟨_, _, _, -, -, -, rfl⟩ := Duty.mem_sends hd'
    trivial
  cases hf with
  | root _ _ => exact List.forall_mem_singleton.2 trivial
  | split _ _ =>
    exact List.forall_mem_append.2 ⟨hsends _ _, List.forall_mem_map.2 fun _ _ => trivial⟩
  | splitOther _ =>
    exact List.forall_mem_append.2 ⟨hsends _ _, List.forall_mem_map.2 fun _ _ => rfl⟩
  | replica _ => exact List.forall_mem_singleton.2 rfl
  | @apply _ _ _ shared _ => cases shared <;> exact List.forall_mem_singleton.2 trivial
  | retry => exact List.forall_mem_map.2 fun _ _ => trivial
  | @resend parent o v _ =>
    exact List.forall_mem_singleton.2 fun _ =>
      (houtbound o).mono fun e he => (List.mem_filter.1 he).1
  | _ => simp

/-- A request that waits after a duty waited before, or has the entries that an update moves. -/
theorem View.Fulfils.of_mem_queued (hf : v.Fulfils d ds v') {r : Errand} (hr : r ∈ v'.queued) :
    r ∈ v.queued ∨ ∃ task path b shared, d = .apply task path b shared ∧
      r = ⟨.insert, .here, v.moved path b.entries, false⟩ := by
  cases hf with
  | @apply task path b shared v =>
    rcases View.queued_apply v path task.operation b.entries with hsame | hmore
    · exact Or.inl (hsame ▸ hr)
    · rw [hmore] at hr
      rcases Multiset.mem_cons.1 hr with rfl | hr
      · exact Or.inr ⟨task, path, b, shared, rfl, rfl⟩
      · exact Or.inl hr
  | _ => exact Or.inl hr

/-- What an update moves out of a path is foreign there. -/
theorem View.isForeign_moved (v : View) (peer : LocalPeer) (es : List Entry) :
    peer.IsForeign (v.moved peer.path es) := by
  intro _ e he
  obtain ⟨e', he', rfl⟩ := List.mem_map.1 he
  simpa using (List.mem_filter.1 he').2

/-- A duty keeps what is put by foreign. -/
theorem View.Fulfils.foreign_outbound (hf : v.Fulfils d ds v')
    (houtbound : ∀ o, peer.IsForeign (v.list (.outbound o))) (o : Operation) :
    peer.IsForeign (v'.list (.outbound o)) := by
  rcases hf.does.outbound_cases o with hsame | hnil
  · exact hsame ▸ houtbound o
  · exact hnil ▸ .nil peer

end

namespace Outward

variable {peer : LocalPeer} {d : Duty} {ds ds' : List Duty} {v v' : View} {c : Call}

theorem fulfils (hf : v.Fulfils d ds' v') (h : Outward peer (d :: ds) v) :
    Outward peer (ds' ++ ds) v' := by
  obtain ⟨rfl, hduties, hflying⟩ := h
  refine ⟨hf.peer_eq, List.forall_mem_append.2 ⟨hf.outward, ?_⟩, ?_⟩
  · exact (List.forall_mem_cons.1 hduties).2
  · rw [hf.does.flying_eq]
    exact hflying

theorem send {task : Task} {branch : Key} {b : Batch} {m : Carried} (hm : m.entries = b.entries)
    (h : Outward peer (.send task branch b :: ds) v) : Outward peer ds (v.fly m) := by
  obtain ⟨hsend, hduties⟩ := List.forall_mem_cons.1 h.duties
  refine ⟨h.peer_eq, hduties, Multiset.forall_mem_cons.2 ⟨?_, h.flying⟩⟩
  rw [hm]
  exact hsend

theorem take (ht : v.Takes c v') (h : Outward peer ds v) : Outward peer ds v' := by
  refine ⟨ht.peer_eq.trans h.peer_eq, h.duties, ?_⟩
  cases ht with
  | submit _ => exact h.flying
  | wait => exact h.flying
  | unknown _ => exact h.flying
  | @settle m rest delivered v hm _ =>
    have hrest : ∀ m' ∈ rest, peer.IsForeign m'.entries := fun m' hm' =>
      h.flying m' (hm ▸ Multiset.mem_cons_of_mem hm')
    cases delivered <;> exact hrest

/-- What a call puts by was in flight. -/
theorem foreign_outbound (ht : v.Takes c v') (h : Outward peer ds v)
    (houtbound : ∀ o, peer.IsForeign (v.list (.outbound o))) (o : Operation) :
    peer.IsForeign (v'.list (.outbound o)) := by
  rcases ht.outbound_cases o with hsame | ⟨m, hm, hput⟩
  · exact hsame ▸ houtbound o
  · rw [hput]
    exact (houtbound o).append ((h.flying m hm).mono fun e he => (List.mem_filter.1 he).1)

theorem share {task : Task} {path : Key} {b : Batch}
    (h : Outward peer (.share task path b :: ds) v) : Outward peer (.drop :: ds) v :=
  ⟨h.peer_eq, List.forall_mem_cons.2 ⟨trivial, (List.forall_mem_cons.1 h.duties).2⟩, h.flying⟩

theorem upholds (peer : LocalPeer) : Upholds Call.Encodable fun ds v _ => Outward peer ds v where
  readable _ hc := hc.readable
  fulfils _ _ _ _ _ _ hf h := h.fulfils hf
  send _ _ _ _ _ _ _ _ _ _ hm h := h.send hm
  share _ _ _ _ _ _ _ _ h := h.share
  take _ _ _ _ _ _ ht h := h.take ht

theorem upholds_outbound (peer : LocalPeer) : Upholds Call.Encodable fun ds v _ =>
    Outward peer ds v ∧ ∀ o, peer.IsForeign (v.list (.outbound o)) where
  readable _ hc := hc.readable
  fulfils _ _ _ _ _ _ hf h := ⟨h.1.fulfils hf, hf.foreign_outbound h.2⟩
  send _ _ _ _ _ _ _ _ _ _ hm h := ⟨h.1.send hm, h.2⟩
  share _ _ _ _ _ _ _ _ h := ⟨h.1.share, h.2⟩
  take _ _ _ _ _ _ ht h := ⟨h.1.take ht, h.1.foreign_outbound ht h.2⟩

theorem start (rs : List (RequestId × Errand)) (h : Outward peer [] v) :
    Outward peer (rs.map (fun r => .serve r.1 r.2) ++ [.retry, .merge]) { v with queued := 0 } := by
  refine ⟨h.peer_eq, List.forall_mem_append.2 ⟨?_, by simp [Duty.IsOutward]⟩, h.flying⟩
  exact List.forall_mem_map.2 fun _ _ => trivial

theorem admits (peer : LocalPeer) : Admits (fun _ => True) fun ds v _ => Outward peer ds v where
  start rs _ _ _ h := h.start rs
  deliver _ _ _ _ _ _ _ _ h := ⟨h.peer_eq, h.duties, h.flying⟩

theorem admits_outbound (peer : LocalPeer) : Admits (fun _ => True) fun ds v _ =>
    Outward peer ds v ∧ ∀ o, peer.IsForeign (v.list (.outbound o)) where
  start rs _ _ _ h := ⟨h.1.start rs, h.2⟩
  deliver _ _ _ _ _ _ _ _ h := ⟨⟨h.1.peer_eq, h.1.duties, h.1.flying⟩, h.2⟩

end Outward

namespace Shares

variable {peer : LocalPeer} {total : List Share} {d : Duty} {ds ds' : List Duty} {v v' : View}
  {log : List Slip} {s : Slip} {task : Task} {path branch : Key} {b : Batch} {m : Carried}
  {c : Call}

theorem fulfils (hf : v.Fulfils d ds' v') (h : Shares peer total (d :: ds) v log) :
    Shares peer total (ds' ++ ds) v' log := by
  obtain rfl := h.outward.peer_eq
  obtain ⟨hd, hduties⟩ := List.forall_mem_cons.1 h.duties
  obtain ⟨done, hdone, htotal⟩ := h.posted
  refine ⟨h.outward.fulfils hf, List.forall_mem_append.2 ⟨hf.raisesForeign hd h.outbound, hduties⟩,
    fun r hr => ?_, hf.foreign_outbound h.outbound, done, hdone, ?_⟩
  · rcases hf.of_mem_queued hr with hr | ⟨task, path, b, shared, rfl, rfl⟩
    · exact h.queued r hr
    · obtain rfl : path = v.peer.path := hd
      exact fun _ => v.isForeign_moved v.peer b.entries
  · rw [List.flatMap_append, hf.shares_eq hd]
    exact htotal

theorem send (ht : s.Tells (.toward branch) task branch b) (hm : m.entries = b.entries)
    (h : Shares peer total (.send task branch b :: ds) v log) :
    Shares peer total ds (v.fly m) (log ++ [s]) := by
  obtain ⟨done, hdone, htotal⟩ := h.posted
  have hs : s.isShared = false := by
    rw [Slip.isShared, ht.target_eq]
    rfl
  refine ⟨h.outward.send hm, (List.forall_mem_cons.1 h.duties).2, h.queued, h.outbound, done, ?_,
    htotal⟩
  rw [List.filter_append, List.filter_cons_of_neg (by simp [hs]), List.filter_nil, List.append_nil]
  exact hdone

theorem share (ht : s.Tells .replicas task path b)
    (h : Shares peer total (.share task path b :: ds) v log) :
    Shares peer total (.drop :: ds) v (log ++ [s]) := by
  obtain ⟨done, hdone, htotal⟩ := h.posted
  have hs : s.isShared = true := by
    rw [Slip.isShared, ht.target_eq]
    rfl
  refine ⟨h.outward.share, List.forall_mem_cons.2 ⟨trivial, (List.forall_mem_cons.1 h.duties).2⟩,
    h.queued, h.outbound, done ++ [⟨task.operation, b⟩], ?_, ?_⟩
  · rw [List.filter_append, List.filter_cons_of_pos hs, List.filter_nil]
    exact List.rel_append hdone (.cons ⟨task, path, rfl, ht⟩ .nil)
  · rw [← htotal, List.append_assoc]
    rfl

theorem take (hc : c.IsDelivery) (ht : v.Takes c v') (h : Shares peer total ds v log) :
    Shares peer total ds v' log := by
  refine ⟨h.outward.take ht, h.duties, ?_, h.outward.foreign_outbound ht h.outbound, h.posted⟩
  cases ht with
  | @submit r es message v _ =>
    obtain ⟨⟨parent, viaReplica⟩, hremote⟩ := Option.ne_none_iff_exists'.1 hc.2
    refine Multiset.forall_mem_cons.2 ⟨fun hhere => ?_, h.queued⟩
    rw [Submission.origin, hremote] at hhere
    cases hhere
  | wait => exact h.queued
  | unknown _ => exact h.queued
  | @settle m rest delivered v _ _ => cases delivered <;> exact h.queued

/-- Messages of others are shared when they are served, and only these. -/
theorem upholds (peer : LocalPeer) (total : List Share) :
    Upholds Call.IsDelivery (Shares peer total) where
  readable c hc := by
    cases c with
    | submit r => exact Call.Encodable.readable (c := .submit r) hc.1
    | report | wait => trivial
  fulfils _ _ _ _ _ _ hf h := h.fulfils hf
  send _ _ _ _ _ _ _ _ ht _ hm h := h.send ht hm
  share _ _ _ _ _ _ _ ht h := h.share ht
  take _ _ _ _ _ hc ht h := h.take hc ht

/-- When a cycle begins, what it will share of the requests is known. -/
theorem start (rs : List (RequestId × Errand))
    (hrs : v.queued = (rs.map Prod.snd : Multiset Errand)) (h : Shares peer total [] v log) :
    Shares peer (total ++ rs.flatMap fun r => r.2.shares peer.path)
      (rs.map (fun r => .serve r.1 r.2) ++ [.retry, .merge]) { v with queued := 0 } log := by
  obtain ⟨done, hdone, htotal⟩ := h.posted
  refine ⟨h.outward.start rs, List.forall_mem_append.2 ⟨List.forall_mem_map.2 fun r hr => ?_, ?_⟩,
    by simp, h.outbound, done, hdone, ?_⟩
  · refine h.queued r.2 ?_
    rw [hrs]
    exact Multiset.mem_coe.2 (List.mem_map_of_mem hr)
  · simp [Duty.RaisesForeign]
  · rw [← htotal, List.flatMap_nil, List.append_nil, List.flatMap_append, List.flatMap_map]
    simp [Duty.shares]

theorem queue {r : Errand} (hr : r.origin ≠ .here) (h : Shares peer total [] v log) :
    Shares peer total [] (v.queue r) log :=
  ⟨⟨h.outward.peer_eq, h.outward.duties, h.outward.flying⟩, h.duties,
    Multiset.forall_mem_cons.2 ⟨fun hhere => absurd hhere hr, h.queued⟩, h.outbound, h.posted⟩

end Shares

namespace Quiet

theorem upholds (peer : LocalPeer) : Upholds Call.IsFromReplica (Quiet peer) where
  readable c hc := by
    cases c with
    | submit r => exact Call.Encodable.readable (c := .submit r) hc.1
    | report | wait => trivial
  fulfils d ds ds' v v' log hf h := by
    refine ⟨h.shares.fulfils hf, fun r hr => ?_⟩
    rcases hf.of_mem_queued hr with hr | ⟨task, path, b, shared, rfl, rfl⟩
    · exact h.queued r hr
    · rfl
  send _ _ _ _ _ _ _ _ ht _ hm h := ⟨h.shares.send ht hm, h.queued⟩
  share _ _ _ _ _ _ _ ht h := ⟨h.shares.share ht, h.queued⟩
  take c ds v v' log hc ht h := by
    cases ht with
    | @submit r es message v hes =>
      obtain ⟨hr, parent, hremote⟩ := hc
      have hdelivery : (Call.submit r).IsDelivery := ⟨hr, by simp [hremote]⟩
      refine ⟨h.shares.take hdelivery (.submit hes), Multiset.forall_mem_cons.2 ⟨?_, h.queued⟩⟩
      rw [Errand.shares, Submission.origin, hremote]
    | wait => exact h
    | unknown _ => exact h
    | @settle m rest delivered v hm hrest =>
      have hdelivery : (Call.report m.sender m.id delivered).IsDelivery := trivial
      refine ⟨h.shares.take hdelivery (.settle hm hrest), ?_⟩
      cases delivered <;> exact h.queued

theorem admits (peer : LocalPeer) : Admits (fun e => e.viaReplica = true) (Quiet peer) where
  start rs v log hrs h := by
    have hnone : (rs.flatMap fun r => r.2.shares peer.path) = [] := by
      refine List.flatMap_eq_nil_iff.2 fun r hr => h.queued r.2 ?_
      rw [hrs]
      exact Multiset.mem_coe.2 (List.mem_map_of_mem hr)
    have hstart := h.shares.start rs hrs
    rw [hnone] at hstart
    exact ⟨hstart, by simp⟩
  deliver e parcel b v log hreplica _ _ h := by
    refine ⟨h.shares.queue (by simp), Multiset.forall_mem_cons.2 ⟨?_, h.queued⟩⟩
    rw [Errand.shares, hreplica]

/-- Nothing was shared. -/
theorem not_isShared {peer : LocalPeer} {ds : List Duty} {v : View} {log : List Slip}
    (h : Quiet peer ds v log) : ∀ s ∈ log, s.isShared = false := by
  obtain ⟨done, hdone, htotal⟩ := h.shares.posted
  rw [(List.append_eq_nil_iff.1 htotal).1, List.forall₂_nil_right_iff] at hdone
  simpa using List.filter_eq_nil_iff.1 hdone

end Quiet

namespace Node

/-- At a fixed path a node never has in flight, or puts by, what a split would keep there. -/
theorem foreign_of_run {ω : Type} {n : Node} {desk : Desk ω} {turns : List Turn} (w : ω)
    (hn : n.Sound []) (hflying : ∀ m ∈ n.view.flying, n.peer.IsForeign m.entries)
    (houtbound : ∀ o, n.peer.IsForeign (n.view.list (.outbound o)))
    (hdesk : desk.Makes Call.Encodable)
    (hturns : ∀ t ∈ turns, t.IsAmong Call.Encodable fun _ => True) :
    let v := (desk.run turns (n, [], w)).1.view
    (∀ m ∈ v.flying, n.peer.IsForeign m.entries) ∧
      ∀ o, n.peer.IsForeign (v.list (.outbound o)) := by
  have hrun := (Outward.upholds_outbound n.peer).run (Outward.admits_outbound n.peer) hdesk
    (s := (n, [], w)) ⟨hn, ⟨rfl, by simp, hflying⟩, houtbound⟩ hturns
  exact ⟨hrun.holds.1.flying, hrun.holds.2⟩

/-- **Deliveries of replicas are never shared again.**  Let anything be delivered to a node and
asked of it, with nothing in flight at first and at a fixed path, until no request waits and all
outbound lists are empty.  If from then on only replicas send something, then the node sends nothing
to replicas, whatever is reported and however often it is sent again. -/
theorem quiet_of_replicas {ω₀ ω : Type} {n₀ n : Node} {desk₀ : Desk ω₀} {desk : Desk ω}
    {before turns : List Turn} {w₀ : ω₀} (w : ω) (hn₀ : n₀.Sound []) (hflying : n₀.view.flying = 0)
    (hdesk₀ : desk₀.Makes Call.Encodable)
    (hbefore : ∀ t ∈ before, t.IsAmong Call.Encodable fun _ => True)
    (hn : n = (desk₀.run before (n₀, [], w₀)).1)
    (hqueued : n.view.queued = 0) (houtbound : ∀ o, n.view.list (.outbound o) = [])
    (hdesk : desk.Makes Call.IsFromReplica)
    (hturns : ∀ t ∈ turns, t.IsAmong Call.IsFromReplica fun e => e.viaReplica = true) :
    ∀ s ∈ (desk.run turns (n, [], w)).2.1, s.letter.target ≠ .replicas := by
  have hstart : Upholds.Meets (fun ds v _ => Outward n₀.peer ds v) [] (n₀, [], w₀) :=
    ⟨hn₀, rfl, by simp, by simp [hflying]⟩
  have hmid := (Outward.upholds n₀.peer).run (Outward.admits n₀.peer) hdesk₀ hstart hbefore
  have houtward : Outward n₀.peer [] n.view := hn ▸ hmid.holds
  have hquiet : Upholds.Meets (Quiet n₀.peer) [] (n, [], w) := by
    refine ⟨hn ▸ hmid.sound, ⟨houtward, by simp, by simp [hqueued], fun o => ?_, [], .nil, rfl⟩,
      by simp [hqueued]⟩
    rw [houtbound]
    exact .nil _
  have hrun := (Quiet.upholds n₀.peer).run (Quiet.admits n₀.peer) hdesk hquiet hturns
  intro s hs
  simpa [Slip.isShared] using hrun.holds.not_isShared s hs

/-- A replica updates an entry, whose new key lies elsewhere.  It goes there from memory, then from
the outbound list as a file, and every message is lost. -/
theorem quiet_of_replica_update :
    let lose : Desk Unit := fun slips _ w =>
      (slips.map fun s => .report s.dispatch.sender s.dispatch.message.header.id false, w)
    let update : Envelope := .wrap .replicas ⟨"replica"⟩
      ⟨⟨⟨"message"⟩, ⟨[true]⟩, .update, ⟨"parent"⟩⟩, .entries [Sample.entry "a" ⟨[true]⟩]⟩
    ∃ n, Node.openAt (Sample.peer ⟨[true]⟩) (.ofBits 8) 0 .root .empty = .ok n ∧
      let slips := (lose.run [.deliver update, .cycle, .cycle] (n, [], ())).2.1
      slips.map (fun s => (s.dispatch.sender, s.letter.target, s.letter.operation)) =
        [(.entries, .toward ⟨[false]⟩, .insert), (.files, .toward ⟨[false]⟩, .insert)] ∧
      ∀ s ∈ slips, s.letter.target ≠ .replicas := by
  intro lose update
  obtain ⟨n, hopen, hsound, hidle, -⟩ := openAt_sound rfl Volume.vacant_empty
    (Sample.peer ⟨[true]⟩) (.ofBits 8) 0
  have hlose {ok : Call → Prop} (hok : ∀ sender id, ok (.report sender id false)) :
      lose.Makes ok := fun slips n w c hc => by
    obtain ⟨s, -, rfl⟩ := List.mem_map.1 hc
    exact hok ..
  have hbefore : n = (lose.run [] (n, [], ())).1 := rfl
  refine ⟨n, hopen, ?_, quiet_of_replicas () hsound hidle.flying (hlose fun _ _ => trivial)
    (by simp) hbefore hidle.queued (fun o => hidle.list _) (hlose fun _ _ => trivial) ?_⟩
  · have hsent : (Node.openAt (Sample.peer ⟨[true]⟩) (.ofBits 8) 0 .root .empty).map (fun n =>
        (lose.run [.deliver update, .cycle, .cycle] (n, [], ())).2.1.map fun s =>
          (s.dispatch.sender, s.letter.target, s.letter.operation)) =
        .ok [(.entries, .toward ⟨[false]⟩, .insert), (.files, .toward ⟨[false]⟩, .insert)] := by
      decide +kernel
    rw [hopen] at hsent
    exact Except.ok.inj hsent
  · have hupdate : update.viaReplica = true := rfl
    simp [Turn.IsAmong, hupdate]

end Node

end TrieOverlay
