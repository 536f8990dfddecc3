import TrieOverlay.Proofs.Node.Desk
import TrieOverlay.Proofs.Node.Opening

/-!
# Messages without entries

A message is *filled* if whoever gets it can decode an entry from it.  A batch in memory that has
no entries is never sent.  A file without entries is: a peer that is no super peer sends the file of
its own request toward the root as it is, and a file that is split has a part for every level of an
entry that it had, though only entries that can be written get into the part.  A request is *fit*
for a peer if neither happens when the peer serves it (`Errand.IsFit`).

* `View.Fulfils.isFit_iff`: a duty is fit exactly if all duties that come of it are.
* `Node.messages_filled_iff`: all messages of a run are filled exactly if every request was fit for
  the peer that began to serve it.  What is sent again is always fit.
-/

namespace TrieOverlay

/-! ### Filled messages and fit requests -/

/-- Whether an entry can be decoded from a message as it is posted. -/
def Slip.IsFilled (s : Slip) : Prop :=
  ∃ e parcel, s.envelope = some e ∧ e.unwrap = .ok parcel ∧ parcel.content.arriving ≠ []

/-- Whether every level of a path at which there are entries has one that can be written. -/
def SplitsWell (path : Key) (es : List Entry) : Prop :=
  ∀ e ∈ es, ∃ e' ∈ es, path.levelOf e'.key = path.levelOf e.key ∧
    Bulk.Line.isEncodable e' = true

/-- Whether all messages of a request are filled when a peer serves it. -/
def Errand.IsFit (peer : LocalPeer) (r : Errand) : Prop :=
  r.inFile = true →
    match r.origin with
    | .here => if peer.isSuperPeer then SplitsWell peer.path r.entries else r.entries ≠ []
    | .peer _ _ false => SplitsWell peer.path r.entries
    | .peer _ _ true => True

/-- Whether all messages that come of a duty are filled. -/
def Duty.IsFit (peer : LocalPeer) : Duty → Prop
  | serve _ r => r.IsFit peer
  | send _ _ b | share _ _ b | apply _ _ b true => b.entries ≠ []
  | apply _ _ _ false | drop | retry | resend _ | merge => True

/-- Whether the outbound lists have only entries that can be written, so that all of them are sent
again. -/
def View.CanResend (v : View) : Prop :=
  ∀ o, ∀ e ∈ v.list (.outbound o), Bulk.Line.isEncodable e = true

theorem Batch.arriving_ne_nil_iff (b : Batch) : b.arriving ≠ [] ↔ b.entries ≠ [] := by
  rw [arriving]
  split
  · rw [ne_eq, List.map_eq_nil_iff]
  · rfl

/-- A message is filled exactly if its batch has entries. -/
theorem Slip.Tells.isFilled_iff {s : Slip} {target : Target} {task : Task} {branch : Key}
    {b : Batch} (h : s.Tells target task branch b) : s.IsFilled ↔ b.entries ≠ [] := by
  obtain ⟨sender, content, hposted, -, harriving⟩ := h.posted
  rw [← b.arriving_ne_nil_iff, ← harriving]
  constructor
  · rintro ⟨e, parcel, he, hparcel, hne⟩
    obtain rfl : _ = e := Option.some.inj (hposted.symm.trans he)
    rw [Envelope.unwrap_wrap] at hparcel
    obtain rfl : _ = parcel := Except.ok.inj hparcel
    exact hne
  · exact fun hne => ⟨_, _, hposted, Envelope.unwrap_wrap .., hne⟩

/-! ### Parts of a batch -/

namespace Batch

variable {b p : Batch} {es : List Entry}

/-- A part of a batch in memory has entries; a part of a file may have lost all of them. -/
theorem entries_ne_nil_iff_of_part (h : b.part es = some p) :
    p.entries ≠ [] ↔ (b.inFile = true → ∃ e ∈ es, Bulk.Line.isEncodable e = true) := by
  obtain ⟨hne, rfl⟩ := part_eq_some h
  change b.kept es ≠ [] ↔ _
  rw [kept]
  cases b.inFile with
  | true => simp
  | false => simpa using hne

/-- A batch splits well exactly if all its parts have entries. -/
theorem splitsWell_iff (b : Batch) (path : Key) :
    (b.inFile = true → SplitsWell path b.entries) ↔
      ∀ level ≤ path.length, ∀ p, b.partAt path level = some p → p.entries ≠ [] := by
  constructor
  · intro hsplit level _ p hp
    refine (entries_ne_nil_iff_of_part hp).2 fun hfile => ?_
    obtain ⟨e, he⟩ := List.exists_mem_of_ne_nil _ (part_eq_some hp).1
    obtain ⟨hmem, hlevel⟩ := List.mem_filter.1 he
    obtain ⟨e', he', hlevel', hencodable⟩ := hsplit hfile e hmem
    refine ⟨e', List.mem_filter.2 ⟨he', ?_⟩, hencodable⟩
    rw [hlevel']
    exact hlevel
  · intro hparts hfile e he
    have hmem : e ∈ atLevel path (path.levelOf e.key) b.entries :=
      List.mem_filter.2 ⟨he, beq_self_eq_true _⟩
    have hpart : b.partAt path (path.levelOf e.key) = some ⟨b.kept _, b.inFile⟩ :=
      if_neg (List.ne_nil_of_mem hmem)
    obtain ⟨e', he', hencodable⟩ := (entries_ne_nil_iff_of_part hpart).1
      (hparts _ (Key.levelOf_le path e.key) _ hpart) hfile
    obtain ⟨hmem', hlevel⟩ := List.mem_filter.1 he'
    exact ⟨e', hmem', by simpa using hlevel, hencodable⟩

end Batch

section

variable {peer : LocalPeer} {d : Duty} {ds : List Duty} {v v' : View} {c : Call}

/-- Splitting a batch sends filled messages exactly if the batch splits well. -/
theorem Duty.isFit_split_iff (task : Task) (path : Key) (b : Batch) {owned : Batch → Duty}
    (howned : ∀ p, (owned p).IsFit peer ↔ p.entries ≠ []) :
    (∀ d ∈ Duty.sends task path b ++ (b.owned path).toList.map owned, d.IsFit peer) ↔
      (b.inFile = true → SplitsWell path b.entries) := by
  rw [b.splitsWell_iff, List.forall_mem_append]
  constructor
  · rintro ⟨hsends, hown⟩ level hle p hp
    rcases Nat.lt_or_eq_of_le hle with hlt | rfl
    · obtain ⟨branch, hbranch⟩ := Job.exists_branchAt? hlt
      refine hsends (.send task branch p) (List.mem_filterMap.2 ⟨level, List.mem_range.2 hlt, ?_⟩)
      simp only [hp, hbranch]
    · -- the part beyond the last level is the owned one
      have hp' : b.owned path = some p := hp
      refine (howned p).1 (hown (owned p) ?_)
      rw [hp']
      exact List.mem_singleton_self _
  · refine fun hparts => ⟨fun d hd => ?_, List.forall_mem_map.2 fun p hp => (howned p).2 ?_⟩
    · obtain ⟨level, branch, p, hlt, -, hp, rfl⟩ := Duty.mem_sends hd
      exact hparts level (Nat.le_of_lt hlt) p hp
    · exact hparts path.length (Nat.le_refl _) p (Option.mem_toList.1 hp)

/-- A request that is sent again is fit. -/
theorem Errand.isFit_resend {es : List Entry} (hne : es ≠ [])
    (hes : ∀ e ∈ es, Bulk.Line.isEncodable e = true) (peer : LocalPeer) (o : Operation) :
    (⟨o, .here, es.filter fun e => Bulk.Line.isEncodable e, true⟩ : Errand).IsFit peer := by
  intro _
  rw [List.filter_eq_self.2 hes]
  change if peer.isSuperPeer = true then SplitsWell peer.path es else es ≠ []
  split
  · exact fun e he => ⟨e, he, rfl, hes e he⟩
  · exact hne

/-- **A duty is fit exactly if all duties that come of it are.** -/
theorem View.Fulfils.isFit_iff (hf : v.Fulfils d ds v') (hv : v.CanResend) :
    (∀ d' ∈ ds, d'.IsFit v.peer) ↔ d.IsFit v.peer := by
  cases hf with
  | @nothing parent r v _ _ hmemory => simp [Duty.IsFit, Errand.IsFit, hmemory]
  | @root parent r v hhere hs hmemory =>
    simp only [List.forall_mem_singleton, Duty.IsFit, Errand.IsFit, hhere, hs]
    cases hfile : r.inFile with
    | true => simp [Errand.batch]
    | false => simpa [Errand.batch] using hmemory hfile
  | @split parent r v hhere hs =>
    rw [Duty.isFit_split_iff _ _ _ fun p => Iff.rfl]
    simp only [Duty.IsFit, Errand.IsFit, hhere, hs, if_true]
    rfl
  | @splitOther parent r v message sender hother =>
    rw [Duty.isFit_split_iff _ _ _ fun p => Iff.rfl]
    simp only [Duty.IsFit, Errand.IsFit, hother]
    rfl
  | replica hother => simp [Duty.IsFit, Errand.IsFit, hother]
  | @apply task path b shared v => cases shared <;> simp [Duty.IsFit]
  | retry => simp [Duty.IsFit]
  | @resend parent o v hne =>
    exact iff_of_true (List.forall_mem_singleton.2 (Errand.isFit_resend hne (hv o) v.peer o))
      trivial
  | _ => simp [Duty.IsFit]

theorem View.Fulfils.canResend (hf : v.Fulfils d ds v') (hv : v.CanResend) : v'.CanResend := by
  intro o
  rcases hf.does.outbound_cases o with hsame | hnil
  · exact hsame ▸ hv o
  · simp [hnil]

theorem View.Takes.canResend (ht : v.Takes c v') (hv : v.CanResend) : v'.CanResend := by
  intro o
  rcases ht.outbound_cases o with hsame | ⟨m, -, hput⟩
  · exact hsame ▸ hv o
  · rw [hput]
    exact List.forall_mem_append.2 ⟨hv o, fun e he => (List.mem_filter.1 he).2⟩

end

/-! ### What a cycle keeps -/

/-- At a peer, all messages are filled, those that were sent and those that will be, exactly if
something holds. -/
structure Weighs (peer : LocalPeer) (fit : Prop) (ds : List Duty) (v : View) (log : List Slip) :
    Prop where
  peer_eq : v.peer = peer
  canResend : v.CanResend
  filled_iff : ((∀ s ∈ log, s.IsFilled) ∧ ∀ d ∈ ds, d.IsFit peer) ↔ fit

namespace Weighs

variable {peer : LocalPeer} {fit : Prop} {d : Duty} {ds ds' : List Duty} {v v' : View}
  {log : List Slip} {s : Slip}

theorem fulfils (hf : v.Fulfils d ds' v') (h : Weighs peer fit (d :: ds) v log) :
    Weighs peer fit (ds' ++ ds) v' log := by
  obtain ⟨rfl, hresend, hfilled⟩ := h
  refine ⟨hf.peer_eq, hf.canResend hresend, ?_⟩
  rw [List.forall_mem_append, hf.isFit_iff hresend, ← List.forall_mem_cons]
  exact hfilled

/-- A message is filled exactly if the duty to send it was fit. -/
theorem post (h : Weighs peer fit (d :: ds) v log) (hs : s.IsFilled ↔ d.IsFit peer)
    (hv : v'.peer = v.peer) (hresend : v'.CanResend) : Weighs peer fit ds v' (log ++ [s]) := by
  refine ⟨hv.trans h.peer_eq, hresend, ?_⟩
  rw [← h.filled_iff, List.forall_mem_append, List.forall_mem_singleton, hs, List.forall_mem_cons,
    and_assoc]

theorem drop (h : Weighs peer fit ds v log) : Weighs peer fit (.drop :: ds) v log := by
  refine ⟨h.peer_eq, h.canResend, ?_⟩
  rw [← h.filled_iff, List.forall_mem_cons]
  simp [Duty.IsFit]

theorem upholds (peer : LocalPeer) (fit : Prop) : Upholds Call.Readable (Weighs peer fit) where
  readable _ := id
  fulfils _ _ _ _ _ _ hf h := h.fulfils hf
  send _ _ _ _ _ _ _ _ ht _ _ h := h.post ht.isFilled_iff rfl h.canResend
  share _ _ _ _ _ _ _ ht h := (h.post ht.isFilled_iff rfl h.canResend).drop
  take _ _ _ _ _ _ ht h := ⟨ht.peer_eq.trans h.peer_eq, ht.canResend h.canResend, h.filled_iff⟩

end Weighs

/-- What is put by can be sent again. -/
theorem View.upholds_canResend : Upholds Call.Readable fun _ v _ => v.CanResend where
  readable _ := id
  fulfils _ _ _ _ _ _ hf h := hf.canResend h
  send _ _ _ _ _ _ _ _ _ _ _ h := h
  share _ _ _ _ _ _ _ _ h := h
  take _ _ _ _ _ _ ht h := ht.canResend h

theorem View.admits_canResend : Admits (fun _ => True) fun _ v _ => v.CanResend where
  start _ _ _ _ h := h
  deliver _ _ _ _ _ _ _ _ h := h

/-! ### Runs -/

/-- What happens to a node while no cycle runs, or a cycle. -/
inductive Occurrence where
  /-- Another peer delivers a message, a call is made or a cycle runs. -/
  | turn (turn : Turn)
  /-- The peer moves to another path. -/
  | setPath (path : Key)
  /-- The entries that do not belong to the path are handed off. -/
  | handOff
  /-- The application inserts entries. -/
  | insert (entries : List Entry) (propagate : Bool)
  /-- The application updates entries. -/
  | update (entries : List Entry)
  /-- The application deletes entries. -/
  | delete (entries : List Entry) (propagate : Bool)

/-- Whether an occurrence submits only what can be read. -/
def Occurrence.Readable : Occurrence → Prop
  | turn t => t.IsAmong Call.Readable fun _ => True
  | setPath _ | handOff | insert _ _ | update _ | delete _ _ => True

/-- The requests that an occurrence begins to serve, each with the peer that serves it. -/
def Node.begun (n : Node) : Occurrence → List (LocalPeer × Errand)
  | .turn .cycle => n.queues.inOrder.map fun r => (n.peer, n.errand r)
  | .turn (.deliver _) | .turn (.call _) | .setPath _ | .handOff | .insert _ _ | .update _
  | .delete _ _ => []

namespace Desk

variable {ω : Type}

/-- A node after an occurrence. -/
def undergo (desk : Desk ω) (s : Node × List Slip × ω) : Occurrence → Node × List Slip × ω
  | .turn t => desk.turn s t
  | .setPath path => (s.1.setPath path, s.2)
  | .handOff => (s.1.redistribute.2, s.2)
  | .insert es propagate => (s.1.insert es propagate, s.2)
  | .update es => (s.1.update es, s.2)
  | .delete es propagate => (s.1.delete es propagate, s.2)

/-- A node after some occurrences, one after the other. -/
def live (desk : Desk ω) (os : List Occurrence) (s : Node × List Slip × ω) :
    Node × List Slip × ω :=
  os.foldl desk.undergo s

/-- The requests that the cycles of a run began to serve, each with the peer that served it. -/
def served (desk : Desk ω) : List Occurrence → Node × List Slip × ω → List (LocalPeer × Errand)
  | [], _ => []
  | o :: os, s => s.1.begun o ++ desk.served os (desk.undergo s o)

end Desk

namespace Node

variable {ω : Type} {n n' : Node} {desk : Desk ω} {s : Node × List Slip × ω} {o : Occurrence}
  {os : List Occurrence}

/-- A sound node that can send again what is in its outbound lists. -/
structure CanResend (n : Node) : Prop where
  sound : n.Sound []
  canResend : n.view.CanResend

theorem CanResend.of_yields {v : View} (h : n.CanResend) (hy : n.Yields [] [] v n')
    (hv : n.view.SameBut v) : n'.CanResend := by
  refine ⟨hy.sound, ?_⟩
  rw [hy.view_eq, View.CanResend, hv.list]
  exact h.canResend

/-- Every occurrence leaves a sound node that can send again what is in its outbound lists. -/
theorem CanResend.undergo (h : s.1.CanResend) (hdesk : desk.Makes Call.Readable) (ho : o.Readable) :
    (desk.undergo s o).1.CanResend := by
  cases o with
  | turn t =>
    have hmeets : Upholds.Meets (fun _ v _ => v.CanResend) [] s := ⟨h.sound, h.canResend⟩
    have hturn := View.upholds_canResend.turn View.admits_canResend hdesk hmeets ho
    exact ⟨hturn.sound, hturn.holds⟩
  | setPath path => exact ⟨⟨h.sound.inventory, h.sound.named⟩, h.canResend⟩
  | handOff =>
    obtain ⟨k, n', hrun, hy⟩ := h.sound.redistribute
    rw [Desk.undergo, hrun]
    exact h.of_yields hy (View.sameBut_redistribute _)
  | insert es propagate =>
    exact h.of_yields (h.sound.insert es propagate) (View.sameBut_change _ es propagate .insert)
  | update es => exact h.of_yields (h.sound.update es) (View.sameBut_change _ es true .update)
  | delete es propagate =>
    exact h.of_yields (h.sound.delete es propagate) (View.sameBut_change _ es propagate .delete)

/-- The messages of a cycle are filled exactly if the requests that it begins to serve are fit. -/
theorem CanResend.filled_cycle_iff (h : s.1.CanResend) (hdesk : desk.Makes Call.Readable) :
    (∀ m ∈ (cycle desk.router s).2.1, m.IsFilled) ↔
      (∀ m ∈ s.2.1, m.IsFilled) ∧ ∀ r ∈ s.1.queues.inOrder, (s.1.errand r).IsFit s.1.peer := by
  have hstart : (∀ d ∈ Upholds.startingDuties s.1, d.IsFit s.1.peer) ↔
      ∀ r ∈ s.1.queues.inOrder, (s.1.errand r).IsFit s.1.peer := by
    rw [Upholds.startingDuties, List.forall_mem_append, List.forall_mem_map]
    exact and_iff_left (by simp [Duty.IsFit])
  have hcycle := (Weighs.upholds s.1.peer _).cycle hdesk h.sound
    ⟨rfl, h.canResend, and_congr_right' hstart⟩
  rw [← hcycle.holds.filled_iff]
  simp

/-- The messages of an occurrence are filled exactly if the requests that it begins to serve are
fit. -/
theorem CanResend.filled_undergo_iff (h : s.1.CanResend) (hdesk : desk.Makes Call.Readable) :
    (∀ m ∈ (desk.undergo s o).2.1, m.IsFilled) ↔
      (∀ m ∈ s.2.1, m.IsFilled) ∧ ∀ p ∈ s.1.begun o, p.2.IsFit p.1 := by
  -- only a cycle sends anything
  rcases o with (_ | _ | _) | _ | _ | _ | _ | _
  case turn.cycle =>
    rw [begun, List.forall_mem_map]
    exact h.filled_cycle_iff hdesk
  all_goals
    rw [begun]
    simp [Desk.undergo, Desk.turn]

/-- **No message is empty exactly if every request is fit.**  In a run of a node whose outbound
lists have only entries that can be written at first, whatever is submitted, delivered, changed,
handed off and reported: an entry can be decoded from every message that is handed to the router if
and only if every request is fit for the peer at the moment when a cycle begins to serve it.  So a
request in memory never makes an empty message, nor does one that is sent again.  One in a file
does, if its file has no entries and the peer that raised it is no super peer, or if it is split and
all entries at some level are such that they cannot be written. -/
theorem messages_filled_iff {n : Node} (w : ω) (hn : n.Sound [])
    (houtbound : ∀ o, ∀ e ∈ n.view.list (.outbound o), Bulk.Line.isEncodable e = true)
    (hdesk : desk.Makes Call.Readable) (hos : ∀ o ∈ os, o.Readable) :
    (∀ m ∈ (desk.live os (n, [], w)).2.1, m.IsFilled) ↔
      ∀ p ∈ desk.served os (n, [], w), p.2.IsFit p.1 := by
  -- the induction needs any messages to be there at first
  suffices hrun : ∀ s : Node × List Slip × ω, s.1.CanResend →
      ((∀ m ∈ (desk.live os s).2.1, m.IsFilled) ↔
        (∀ m ∈ s.2.1, m.IsFilled) ∧ ∀ p ∈ desk.served os s, p.2.IsFit p.1) by
    simpa using hrun (n, [], w) ⟨hn, houtbound⟩
  induction os with
  | nil => simp [Desk.live, Desk.served]
  | cons o os ih =>
    intro s h
    obtain ⟨ho, hos⟩ := List.forall_mem_cons.1 hos
    rw [Desk.live, List.foldl_cons, ← Desk.live, ih hos _ (h.undergo hdesk ho),
      h.filled_undergo_iff hdesk, Desk.served, List.forall_mem_append, and_assoc]

/-- A file without entries is submitted to a peer that is no super peer, which sends it on. -/
theorem messages_filled_iff_of_empty_file :
    let silent : Desk Unit := fun _ _ w => ([], w)
    let empty : Submission := ⟨.insert, ⟨some [], none, none⟩, true, none⟩
    let peer : LocalPeer := { Sample.peer ⟨[false]⟩ with isSuperPeer := false }
    ∃ n, Node.openAt peer (.ofBits 8) 0 .root .empty = .ok n ∧
      ¬∀ m ∈ (silent.live [.turn (.call (.submit empty)), .turn .cycle] (n, [], ())).2.1,
        m.IsFilled := by
  intro silent empty peer
  obtain ⟨n, hopen, hsound, hidle, hpeer, -⟩ := openAt_sound rfl Volume.vacant_empty peer
    (.ofBits 8) 0
  have hes : empty.entries? = some [] := by decide
  obtain ⟨b, n', message, hrun, hy⟩ := hsound.submitTo hes
  have hreadable : ∀ o ∈ [Occurrence.turn (.call (.submit empty)), .turn .cycle], o.Readable :=
    List.forall_mem_cons.2 ⟨⟨[], hes⟩, List.forall_mem_singleton.2 trivial⟩
  have hsilent : silent.Makes Call.Readable := fun _ _ _ _ hc => absurd hc List.not_mem_nil
  -- the cycle begins to serve the request, whose file has nothing in it
  obtain ⟨r, hr, herrand⟩ : ∃ r ∈ n'.queues.inOrder, n'.errand r = ⟨.insert, .here, [], true⟩ := by
    have hqueued : (n'.queues.inOrder.map n'.errand : Multiset Errand) =
        ⟨.insert, .here, [], true⟩ ::ₘ n.view.queued := congrArg View.queued hy.view_eq
    refine List.mem_map.1 (Multiset.mem_coe.1 ?_)
    rw [hqueued]
    exact Multiset.mem_cons_self _ _
  have hserved : (n'.peer, n'.errand r) ∈
      silent.served [.turn (.call (.submit empty)), .turn .cycle] (n, [], ()) := by
    have htake : n.take (.submit empty) = n' := by rw [Node.take, hrun]
    simp only [Desk.served, begun, Desk.undergo, Desk.turn, htake, List.nil_append, List.append_nil]
    exact List.mem_map_of_mem hr
  have hpeer' : n'.peer = peer := (congrArg View.peer hy.view_eq).trans hpeer
  refine ⟨n, hopen, fun hfilled => ?_⟩
  have hfit := (messages_filled_iff () hsound (by simp [hidle.list]) hsilent hreadable).1 hfilled _
    hserved
  rw [hpeer', herrand] at hfit
  exact hfit rfl rfl

end Node

end TrieOverlay
