import TrieOverlay.Proofs.Node.Draining
import TrieOverlay.Proofs.Node.Sharing

/-!
# Replicas stay in agreement

Two nodes at the same path start with the same rows.  Messages toward the path go to the first one,
which serves each of them in a cycle; what it shares then goes to the second one, which serves that
in cycles of its own (`exchange`).

The first node applies the owned part of what it got, the second one what came of that part on the
way.  A batch in a file is written line by line and trimmed on the way, but whatever came to the
first node in a file was trimmed then, so both apply the same entries (`Batch.arriving_part`).

* `Node.stock_of_cycle`, `Node.shared_of_cycle`: what a cycle that serves one delivered request
  makes of the rows, and what it shares.
* `Node.Rests.of_greedy`, `Node.Rests.of_relays`: what becomes of the first and of the second node.
* `Node.rows_of_exchanges`: the rows are the same after each message, if the first node has no owned
  entries in flight or in an outbound list.
-/

namespace TrieOverlay

/-- A greedy message that is accepted, and whose lines are lines. -/
def Envelope.IsGreedy (e : Envelope) : Prop :=
  e.viaReplica = false ∧ ∃ parcel, e.unwrap = .ok parcel ∧ parcel.content.IsPlain

/-- What a replica gets of a message, and the cycle in which it serves that. -/
def Slip.relayed (s : Slip) : List Turn :=
  if s.isShared then s.envelope.toList.flatMap fun e => [.deliver e, .cycle] else []

/-- A message goes to the first of two nodes, and what that node shares to the second. -/
def exchange {ω ω' : Type} (desk : Desk ω) (desk' : Desk ω') (s : (Node × ω) × Node × ω')
    (e : Envelope) : (Node × ω) × Node × ω' :=
  let first := desk.run [.deliver e, .cycle] (s.1.1, [], s.1.2)
  let second := desk'.run (first.2.1.flatMap Slip.relayed) (s.2.1, [], s.2.2)
  ((first.1, first.2.2), second.1, second.2.2)

/-- The request of a message that is delivered. -/
def Envelope.errand (e : Envelope) (header : Header) (b : Batch) : Errand :=
  ⟨header.operation, .peer header.id header.parent e.viaReplica, b.entries, b.inFile⟩

theorem exists_append_of_coe_eq_cons {α : Type} {as : List α} {a : α} {s : Multiset α}
    (h : (as : Multiset α) = a ::ₘ s) :
    ∃ l₁ l₂, as = l₁ ++ a :: l₂ ∧ ∀ x ∈ l₁ ++ l₂, x ∈ s := by
  have ha : a ∈ as := by
    rw [← Multiset.mem_coe, h]
    exact Multiset.mem_cons_self a s
  obtain ⟨l₁, l₂, rfl⟩ := List.append_of_mem ha
  refine ⟨l₁, l₂, rfl, fun x hx => ?_⟩
  have hs : ((l₁ ++ l₂ : List α) : Multiset α) = s := by
    rw [Multiset.coe_eq_coe.2 List.perm_middle, ← Multiset.cons_coe] at h
    exact (Multiset.cons_inj_right a).1 h
  rw [← hs]
  exact Multiset.mem_coe.2 hx

/-- What came in a file was trimmed, so a part of it arrives as it is. -/
theorem Batch.arriving_part {b : Batch} {es : List Entry} (h : b.arriving = b.entries)
    (hs : es ⊆ b.entries) : (⟨es, b.inFile⟩ : Batch).arriving = es := by
  rw [arriving] at h ⊢
  split
  · rename_i hfile
    rw [if_pos hfile] at h
    have htrimmed := List.map_inj_left.1 (h.trans (List.map_id _).symm)
    exact (List.map_congr_left fun e he => htrimmed e (hs he)).trans (List.map_id _)
  · rfl

theorem foldl_stock_of_cons {keys : KeyScheme} {path : Key} {rs : List Errand} {r : Errand}
    {q : Multiset Errand} (h : (rs : Multiset Errand) = r ::ₘ q) (hq : ∀ r ∈ q, r.origin = .here)
    (s : Stock) :
    (rs.map .serve).foldl (Chore.stock keys path) s = Chore.stock keys path s (.serve r) := by
  obtain ⟨l₁, l₂, rfl, hrest⟩ := exists_append_of_coe_eq_cons h
  obtain ⟨hl₁, hl₂⟩ := List.forall_mem_append.1 hrest
  rw [List.map_append, List.foldl_append, List.map_cons, List.foldl_cons,
    Node.foldl_stock_of_here fun r hr => hq r (hl₁ r hr),
    Node.foldl_stock_of_here fun r hr => hq r (hl₂ r hr)]

theorem flatMap_shares_of_cons {path : Key} {rs : List Errand} {r : Errand} {q : Multiset Errand}
    (h : (rs : Multiset Errand) = r ::ₘ q) (hq : ∀ r ∈ q, r.origin = .here) :
    rs.flatMap (·.shares path) = r.shares path := by
  obtain ⟨l₁, l₂, rfl, hrest⟩ := exists_append_of_coe_eq_cons h
  obtain ⟨hl₁, hl₂⟩ := List.forall_mem_append.1 hrest
  have hnone : ∀ l : List Errand, (∀ r ∈ l, r ∈ q) → l.flatMap (·.shares path) = [] := by
    refine fun l hl => List.flatMap_eq_nil_iff.2 fun r hr => ?_
    rw [Errand.shares, hq r (hl r hr)]
  rw [List.flatMap_append, List.flatMap_cons, hnone l₁ hl₁, hnone l₂ hl₂, List.append_nil,
    List.nil_append]

/-- What a replica gets of some entries that were applied: a message with the same entries, and a
cycle; nothing if there were none. -/
inductive Relays (o : Operation) (es : List Entry) : List Turn → Prop
  | nothing : es = [] → Relays o es []
  | message {sender : PeerId} {header : Header} {content : Content} :
      header.operation = o → content.IsPlain → content.arriving = es →
      Relays o es [.deliver (.wrap .replicas sender ⟨header, content⟩), .cycle]

/-- Only what is shared is relayed. -/
theorem flatMap_relayed (log : List Slip) :
    log.flatMap Slip.relayed = (log.filter Slip.isShared).flatMap Slip.relayed := by
  induction log with
  | nil => rfl
  | cons s log ih =>
    rw [List.flatMap_cons, ih]
    cases hs : s.isShared with
    | true => rw [List.filter_cons_of_pos hs, List.flatMap_cons]
    | false => rw [List.filter_cons_of_neg (by simp [hs]), Slip.relayed, hs]; rfl

/-- What is shared is relayed as it arrives. -/
theorem Slip.Posts.relays {s : Slip} {p : Share} (h : s.Posts p) (hs : s.isShared = true) :
    Relays p.operation p.batch.arriving s.relayed := by
  obtain ⟨task, path, hoperation, ht⟩ := h
  obtain ⟨sender, content, hposted, hplain, harriving⟩ := ht.posted
  have hrelayed : s.relayed =
      [.deliver (.wrap .replicas sender ⟨s.dispatch.message.header, content⟩), .cycle] := by
    rw [relayed, if_pos hs, hposted]
    rfl
  rw [hrelayed]
  exact .message (ht.operation_eq.trans hoperation) hplain harriving

namespace Node

variable {ω ω' : Type} {desk : Desk ω} {desk' : Desk ω'} {n n' : Node} {keys : KeyScheme}
  {peer : LocalPeer} {path : Key} {v : View} {r : Errand} {e : Envelope} {parcel : Parcel}

/-- Only requests that were raised here wait, and everything that was delivered is merged. -/
structure Rests (keys : KeyScheme) (path : Key) (n : Node) : Prop where
  sound : n.Sound []
  keys_eq : n.keys = keys
  path_eq : n.peer.path = path
  queued : ∀ r ∈ n.view.queued, r.origin = .here
  inbound : n.view.list .inbound = []

/-- A cycle that serves one delivered request. -/
theorem stock_of_cycle (hn : n.Sound []) (hdesk : desk.Makes Call.IsReport)
    (hview : n.view = v.queue r) (hv : ∀ r ∈ v.queued, r.origin = .here) (log : List Slip) (w : ω) :
    (cycle desk.router (n, log, w)).1.Rests n.keys n.peer.path ∧
      (cycle desk.router (n, log, w)).1.view.rows =
        (Chore.stock n.keys n.peer.path v.stock (.serve r)).merge.rows := by
  let final := (Chore.stock n.keys n.peer.path v.stock (.serve r)).merge
  have hqueued : (n.errands : Multiset Errand) = r ::ₘ v.queued := congrArg View.queued hview
  have hstock : n.view.stock = v.stock := by
    rw [hview]
    rfl
  have hchores : (Upholds.startingDuties n).map Duty.chore =
      n.errands.map .serve ++ [.retry, .merge] := by
    rw [Upholds.startingDuties, List.map_append, List.map_map, errands, List.map_map]
    rfl
  have hstart : Stocked n.keys n.peer.path final ((Upholds.startingDuties n).map Duty.chore)
      { n.view with queued := 0 } := by
    refine ⟨rfl, rfl, ?_, by simp⟩
    rw [hchores, List.foldl_append, foldl_stock_of_cons hqueued hv]
    exact congrArg (fun s => (Chore.stock _ _ s (.serve r)).merge) hstock
  have hdone := (Stocked.keeps n.keys n.peer.path final).upholds.cycle (s := (n, log, w)) hdesk hn
    hstart
  generalize cycle desk.router (n, log, w) = s at hdone ⊢
  have hfinal : s.1.view.stock = final := hdone.holds.final_eq
  exact ⟨⟨hdone.sound, hdone.holds.keys_eq, hdone.holds.path_eq, hdone.holds.queued,
    congrArg Stock.inbound hfinal⟩, congrArg Stock.rows hfinal⟩

/-- What a cycle that serves one delivered request shares. -/
theorem shared_of_cycle (hn : n.Sound []) (hdesk : desk.Makes Call.IsReport)
    (hview : n.view = v.queue r) (hv : ∀ r ∈ v.queued, r.origin = .here) (hr : r.origin ≠ .here)
    (hshares : Shares n.peer [] [] v []) (w : ω) :
    Shares n.peer [] [] (cycle desk.router (n, [], w)).1.view [] ∧
      List.Forall₂ Slip.Posts ((cycle desk.router (n, [], w)).2.1.filter Slip.isShared)
        (r.shares n.peer.path) := by
  have hqueued : (n.errands : Multiset Errand) = r ::ₘ v.queued := congrArg View.queued hview
  let rs := n.queues.inOrder.map fun q => (q.parent, n.errand q)
  have hrs : rs.map Prod.snd = n.errands := List.map_map
  have htotal : (rs.flatMap fun q => q.2.shares n.peer.path) = r.shares n.peer.path := by
    rw [← flatMap_shares_of_cons hqueued hv, ← hrs]
    exact (List.flatMap_map ..).symm
  have hwaits : Shares n.peer [] [] n.view [] := by
    rw [hview]
    exact hshares.queue hr
  have hstart := hwaits.start rs (congrArg _ hrs.symm)
  rw [List.nil_append, htotal, List.map_map] at hstart
  have hdelivery : desk.Makes Call.IsDelivery := fun slips n w c hc => by
    have hreport := hdesk slips n w c hc
    cases c with
    | submit => exact hreport.elim
    | report | wait => trivial
  have hdone := ((Shares.upholds n.peer (r.shares n.peer.path)).cycle (s := (n, [], w)) hdelivery hn
    hstart).holds
  obtain ⟨done, hposts, hall⟩ := hdone.posted
  rw [List.map_nil, List.flatMap_nil, List.append_nil] at hall
  exact ⟨⟨hdone.outward, by simp, hdone.queued, hdone.outbound, [], .nil, rfl⟩, hall ▸ hposts⟩

/-- A message that is delivered waits as a request; what came in a file was trimmed. -/
theorem Sound.deliver (hn : n.Sound []) (he : e.unwrap = .ok parcel)
    (hplain : parcel.content.IsPlain) :
    ∃ b : Batch, ∃ n', b.entries = parcel.content.arriving ∧ b.arriving = b.entries ∧ n'.Sound [] ∧
      n'.view = n.view.queue (e.errand parcel.header b) ∧
      ∀ {ω : Type} (desk : Desk ω) (log : List Slip) (w : ω),
        desk.run [.deliver e, .cycle] (n, log, w) = cycle desk.router (n', log, w) := by
  obtain ⟨b, n', hrun, hy, hcontent⟩ := hn.receive_parcel he
  obtain ⟨hentries, harriving⟩ := hcontent hplain
  refine ⟨b, n', hentries, harriving.trans hentries.symm, hy.sound, hy.view_eq,
    fun desk log w => ?_⟩
  rw [Desk.run, List.foldl_cons, List.foldl_cons, List.foldl_nil, Desk.turn, hrun]
  rfl

/-- A cycle that serves one delivered request makes of the rows what the request asks for. -/
theorem Rests.cycle (h : n.Rests keys path) (hdesk : desk.Makes Call.IsReport) (hn' : n'.Sound [])
    (hview : n'.view = n.view.queue r) (log : List Slip) (w : ω) :
    (cycle desk.router (n', log, w)).1.Rests keys path ∧
      (cycle desk.router (n', log, w)).1.view.rows =
        (Stock.apply keys path ⟨n.view.rows, []⟩ r.operation (r.applies path)).merge.rows := by
  have hkeys : n'.keys = keys := (congrArg View.keys hview).trans h.keys_eq
  have hpath : n'.peer.path = path := (congrArg (·.peer.path) hview).trans h.path_eq
  have hstock : n.view.stock = ⟨n.view.rows, []⟩ := by
    rw [View.stock, h.inbound]
  have hcycle := stock_of_cycle hn' hdesk hview h.queued log w
  rw [hkeys, hpath, hstock] at hcycle
  exact hcycle

/-- What the first node applies of a message is what it relays. -/
theorem Rests.of_greedy (h : n.Rests keys peer.path) (hshares : Shares peer [] [] n.view [])
    (hdesk : desk.Makes Call.IsReport) (he : e.IsGreedy) (w : ω) :
    ∃ o es, Relays o es ((desk.run [.deliver e, .cycle] (n, [], w)).2.1.flatMap Slip.relayed) ∧
      (desk.run [.deliver e, .cycle] (n, [], w)).1.Rests keys peer.path ∧
      Shares peer [] [] (desk.run [.deliver e, .cycle] (n, [], w)).1.view [] ∧
      (desk.run [.deliver e, .cycle] (n, [], w)).1.view.rows =
        (Stock.apply keys peer.path ⟨n.view.rows, []⟩ o es).merge.rows := by
  obtain ⟨hgreedy, parcel, hparcel, hplain⟩ := he
  obtain ⟨b, n', -, harriving, hsound, hview, hrun⟩ := h.sound.deliver hparcel hplain
  obtain rfl : n'.peer = peer := (congrArg View.peer hview).trans hshares.outward.peer_eq
  let r := e.errand parcel.header b
  have horigin : r.origin = .peer parcel.header.id parcel.header.parent false := by
    rw [← hgreedy]
    rfl
  have happlies : r.applies n'.peer.path = ownedBy n'.peer.path (b.kept b.entries) := by
    rw [Errand.applies, horigin]
    rfl
  have hr : r.shares n'.peer.path = (b.owned n'.peer.path).toList.map (⟨r.operation, ·⟩) := by
    rw [Errand.shares, horigin]
    rfl
  obtain ⟨hrests, hrows⟩ := h.cycle (r := r) hdesk hsound hview [] w
  obtain ⟨hafter, hposts⟩ := shared_of_cycle (r := r) hsound hdesk hview h.queued
    (by simp [horigin]) hshares w
  rw [hrun desk [] w]
  refine ⟨r.operation, r.applies n'.peer.path, ?_, hrests, hafter, hrows⟩
  rw [flatMap_relayed]
  rw [hr] at hposts
  rcases b.owned_cases n'.peer.path with ⟨hnone, hnil⟩ | hsome
  · rw [hnone, Option.toList_none, List.map_nil, List.forall₂_nil_right_iff] at hposts
    rw [hposts, happlies]
    exact .nothing hnil
  · rw [hsome, Option.toList_some, List.map_singleton] at hposts
    generalize hlog : (Node.cycle desk.router (n', [], w)).2.1.filter Slip.isShared = log
      at hposts ⊢
    cases hposts with
    | cons hpost hrest =>
      cases hrest
      rename_i s
      have hs : s.isShared = true := by
        have hmem : s ∈ [s] := List.mem_singleton_self s
        rw [← hlog] at hmem
        exact (List.mem_filter.1 hmem).2
      rw [List.flatMap_singleton, happlies]
      have hkept : ownedBy n'.peer.path (b.kept b.entries) ⊆ b.entries := fun e he =>
        b.kept_subset _ (List.mem_filter.1 he).1
      have hrelays := hpost.relays hs
      rwa [Batch.arriving_part harriving hkept] at hrelays

/-- What the second node gets makes of its rows what the first node made of its own. -/
theorem Rests.of_relays (h : n.Rests keys path) (hdesk : desk.Makes Call.IsReport) {o : Operation}
    {es : List Entry} {turns : List Turn} (ht : Relays o es turns) (w : ω) :
    (desk.run turns (n, [], w)).1.Rests keys path ∧
      (desk.run turns (n, [], w)).1.view.rows =
        (Stock.apply keys path ⟨n.view.rows, []⟩ o es).merge.rows := by
  cases ht with
  | nothing hnil =>
    refine ⟨h, ?_⟩
    rw [hnil, Stock.apply_nil]
    rfl
  | @message sender header content ho hplain hes =>
    let e := Envelope.wrap .replicas sender ⟨header, content⟩
    have he : e.unwrap = .ok ⟨header, content⟩ := Envelope.unwrap_wrap ..
    obtain ⟨b, n', hentries, -, hsound, hview, hrun⟩ := h.sound.deliver he hplain
    have hcycle := h.cycle hdesk hsound hview [] w
    have happlies : (e.errand header b).applies path = es := hentries.trans hes
    rw [happlies, show (e.errand header b).operation = o from ho] at hcycle
    rw [hrun]
    exact hcycle

end Node

/-! ### Two nodes -/

/-- Two nodes at the same path with the same rows, of which the first has no owned entries in flight
or put by. -/
structure Agree {ω ω' : Type} (keys : KeyScheme) (peer : LocalPeer)
    (s : (Node × ω) × Node × ω') : Prop where
  first : s.1.1.Rests keys peer.path
  shares : Shares peer [] [] s.1.1.view []
  second : s.2.1.Rests keys peer.path
  rows_eq : s.2.1.view.rows = s.1.1.view.rows

section

variable {ω ω' : Type} {desk : Desk ω} {desk' : Desk ω'} {keys : KeyScheme} {peer : LocalPeer}
  {s : (Node × ω) × Node × ω'} {e : Envelope} {es : List Envelope}

/-- A message leaves two nodes in agreement. -/
theorem Agree.exchange (h : Agree keys peer s) (hdesk : desk.Makes Call.IsReport)
    (hdesk' : desk'.Makes Call.IsReport) (he : e.IsGreedy) :
    Agree keys peer (exchange desk desk' s e) := by
  obtain ⟨o, es, hrelays, hfirst, hshares, hrows⟩ := h.first.of_greedy h.shares hdesk he s.1.2
  rw [TrieOverlay.exchange]
  generalize desk.run [.deliver e, .cycle] (s.1.1, [], s.1.2) = first
    at hrelays hfirst hshares hrows ⊢
  obtain ⟨hsecond, hrows'⟩ := h.second.of_relays hdesk' hrelays s.2.2
  generalize desk'.run (first.2.1.flatMap Slip.relayed) (s.2.1, [], s.2.2) = second
    at hsecond hrows' ⊢
  refine ⟨hfirst, hshares, hsecond, hrows'.trans ?_⟩
  rw [h.rows_eq]
  exact hrows.symm

theorem Agree.exchanges (h : Agree keys peer s) (hdesk : desk.Makes Call.IsReport)
    (hdesk' : desk'.Makes Call.IsReport) (hes : ∀ e ∈ es, e.IsGreedy) :
    Agree keys peer (es.foldl (TrieOverlay.exchange desk desk') s) := by
  induction es generalizing s with
  | nil => exact h
  | cons e es ih =>
    obtain ⟨he, hes⟩ := List.forall_mem_cons.1 hes
    exact ih (h.exchange hdesk hdesk' he) hes

end

namespace Node

/-- **Replicas stay in agreement.**  Let two nodes be at the same path, with the same keys and the
same rows, let nothing wait in them, and let the first have no entries in flight or in an outbound
list that it would keep if it split them; at a fixed path it never has (`foreign_of_run`).  Then
they have the same rows after any messages that the first one accepts, each with what it shares. -/
theorem rows_of_exchanges {ω ω' : Type} {desk : Desk ω} {desk' : Desk ω'} {a b : Node}
    {es : List Envelope} (ha : a.Sound []) (hb : b.Sound []) (hpath : b.peer.path = a.peer.path)
    (hkeys : b.keys = a.keys) (hrows : b.view.rows = a.view.rows)
    (hqueued : a.view.queued = 0) (hqueued' : b.view.queued = 0)
    (hinbound : a.view.list .inbound = []) (hinbound' : b.view.list .inbound = [])
    (hflying : ∀ m ∈ a.view.flying, a.peer.IsForeign m.entries)
    (houtbound : ∀ o, a.peer.IsForeign (a.view.list (.outbound o)))
    (hdesk : desk.Makes Call.IsReport) (hdesk' : desk'.Makes Call.IsReport)
    (hes : ∀ e ∈ es, e.IsGreedy) (w : ω) (w' : ω') :
    let s := es.foldl (exchange desk desk') ((a, w), b, w')
    s.2.1.view.rows = s.1.1.view.rows := by
  have hstart : Agree a.keys a.peer ((a, w), b, w') :=
    ⟨⟨ha, rfl, rfl, by simp [hqueued], hinbound⟩,
      ⟨⟨rfl, by simp, hflying⟩, by simp, by simp [hqueued], houtbound, [], .nil, rfl⟩,
      ⟨hb, hkeys, hpath, by simp [hqueued'], hinbound'⟩, hrows⟩
  exact (hstart.exchanges hdesk hdesk' hes).rows_eq

/-- Two nodes that were just opened have the same rows after an insertion and an update in lines,
of which one ends with blanks and one has no entry. -/
theorem rows_of_exchanges_of_two :
    let quiet : Desk Unit := fun _ _ w => ([], w)
    let send (o : Operation) (content : Content) : Envelope :=
      .wrap .greedy ⟨"sender"⟩ ⟨⟨⟨"message"⟩, ⟨[true]⟩, o, ⟨"parent"⟩⟩, content⟩
    let replica : LocalPeer := { Sample.peer ⟨[true]⟩ with info := ⟨⟨"replica"⟩, "localhost:2"⟩ }
    let es := [send .insert (.entries [Sample.entry "a" ⟨[true]⟩, Sample.entry "b,c" ⟨[true]⟩]),
      send .update (.lines ["1,dHlwZQ==:bmV3,a,localhost:1,peer  ", "no entry"])]
    ∃ a b, Node.openAt (Sample.peer ⟨[true]⟩) (.ofBits 8) 0 .root .empty = .ok a ∧
      Node.openAt replica (.ofBits 8) 0 .root .empty = .ok b ∧
      let s := es.foldl (exchange quiet quiet) ((a, ()), b, ())
      s.2.1.view.rows = s.1.1.view.rows := by
  intro quiet send replica es
  obtain ⟨a, hopen, ha, hidle, hpeer, hkeys, hrows⟩ := openAt_sound rfl Volume.vacant_empty
    (Sample.peer ⟨[true]⟩) (.ofBits 8) 0
  obtain ⟨b, hopen', hb, hidle', hpeer', hkeys', hrows'⟩ := openAt_sound rfl Volume.vacant_empty
    replica (.ofBits 8) 0
  have hquiet : quiet.Makes Call.IsReport := fun _ _ _ _ hc => absurd hc List.not_mem_nil
  have hsent : ∀ o content, content.IsPlain → (send o content).IsGreedy := fun o content hplain =>
    ⟨rfl, _, Envelope.unwrap_wrap .., hplain⟩
  have hes : ∀ e ∈ es, e.IsGreedy :=
    List.forall_mem_cons.2 ⟨hsent _ _ trivial, List.forall_mem_singleton.2 (hsent _ _ (by
      simp [Content.IsPlain]))⟩
  refine ⟨a, b, hopen, hopen', rows_of_exchanges ha hb (by rw [hpeer, hpeer'])
    (hkeys'.trans hkeys.symm) (hrows'.trans hrows.symm) hidle.queued hidle'.queued (hidle.list _)
    (hidle'.list _) (by simp [hidle.flying]) (fun o => ?_) hquiet hquiet hes () ()⟩
  rw [hidle.list]
  exact .nil _

end Node

end TrieOverlay
