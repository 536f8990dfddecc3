import TrieOverlay.Node.Changes
import TrieOverlay.Node.Service
import TrieOverlay.Proofs.Node.View

/-!
# What the steps of a node do

One lemma for each thing that a node does with its files, its requests or its messages in flight:
from a sound node it gives a sound node, and says what the node looks like then.
-/

namespace TrieOverlay.Node

variable {n n' : Node} {hands : List Payload} {x : Payload} {f : ScratchFile} {es : List Entry}

/-! ### Computations on the volume -/

theorem tryOnDisk_ok {α : Type} {act : TryDisk α} {a : α} {v : Volume}
    (h : act.run.run n.volume = (.ok a, v)) :
    n.tryOnDisk act = (.ok a, { n with volume := v }) := by
  rw [tryOnDisk, onDisk, h]

theorem tryAsk_ok {α : Type} {act : Holdings → TryDisk (α × Holdings)} {a : α} {v : Volume}
    {holdings : Holdings} (h : (act n.holdings).run.run n.volume = (.ok (a, holdings), v)) :
    n.tryAsk act = (.ok a, { n with holdings, volume := v }) := by
  rw [tryAsk, tryOnDisk_ok h]

theorem ask_eq {α : Type} {act : Holdings → Disk (α × Holdings)} {a : α} {v : Volume}
    {holdings : Holdings} (h : (act n.holdings).run n.volume = ((a, holdings), v)) :
    n.ask act = (a, { n with holdings, volume := v }) := by
  rw [ask, onDisk, h]

/-- What is in hand and elsewhere is apart from the lists. -/
theorem Sound.entriesIn_setList (h : n.Sound hands) {b : Buffer} {v : Volume}
    (hk : Volume.Keeps [(n.holdings.list b).path] n.volume v) :
    ∀ x ∈ hands ++ n.payloads, v.entriesIn x = n.volume.entriesIn x :=
  fun _ hx => h.inventory.entriesIn_setList hk hx

/-- A list is written. -/
theorem Sound.setList (h : n.Sound hands) {b : Buffer} {l : BulkList} {v : Volume}
    (hl : n.volume.Leads n.holdings.scratch [(n.holdings.list b).path] v)
    (hp : l.path = (n.holdings.list b).path) (hholds : l.Holds v es) :
    n.Yields hands hands (n.view.setList b es)
      { n with holdings := n.holdings.setList b l, volume := v } := by
  have hinv := h.inventory.setList hl hp hholds
  rw [← Holdings.list_setList, ← n.holdings.scratch_setList b l] at hinv
  have hy := h.yields_of_volume v (n.holdings.setList b l) hinv (h.entriesIn_setList hl.keeps)
  refine ⟨hy.sound, hy.view_eq.trans ?_, hy.kept_eq, hy.serial_le⟩
  rw [Holdings.list_setList, h.inventory.entriesAt_setList hl.keeps hholds,
    Holdings.store_setList]
  rfl

/-- Entries are written at the end of a list. -/
theorem Sound.append (h : n.Sound hands) (b : Buffer) (entries : List Entry)
    (act : Holdings → TryDisk (Nat × Holdings))
    (hact : ∀ g, act g = do
      let (k, l) ← (g.list b).tryAdd entries
      return (k, g.setList b l)) :
    ∃ k n', n.tryAsk act = (.ok k, n') ∧ n.Yields hands hands (n.view.append b entries) n' := by
  obtain ⟨k, v, hrun, hl, hholds⟩ := (h.inventory.holds b).tryAdd h.inventory.ready entries
  refine ⟨k, _, tryAsk_ok ?_, h.setList (l := (n.holdings.list b).renewed) hl rfl hholds⟩
  rw [hact, TryDisk.run_bind_ok hrun]
  rfl

/-- The entries of a list are counted; nothing changes. -/
theorem Sound.counted (h : n.Sound hands) (b : Buffer) :
    ∃ l, (n.holdings.list b).count.run n.volume = (((n.view.list b).length, l), n.volume) ∧
      n.Yields hands hands n.view { n with holdings := n.holdings.setList b l } := by
  obtain ⟨l, hrun, hp, hholds⟩ := (h.inventory.holds b).count h.inventory.ready.schedule
  refine ⟨l, hrun, ?_⟩
  have hy := h.setList (h.inventory.ready.leads_refl _) hp hholds
  rwa [show n.volume.entriesAt (n.holdings.list b).path = n.view.list b from rfl,
    View.setList_list] at hy

/-! ### Hands -/

/-- When only a file in hand changes, everything else stands for the same entries. -/
theorem Sound.entriesIn_file (h : n.Sound (.file f :: hands)) {v : Volume}
    (hk : Volume.Keeps [f.path] n.volume v) :
    (∀ x ∈ hands ++ n.payloads, v.entriesIn x = n.volume.entriesIn x) ∧
      (fun b => v.entriesAt (n.holdings.list b).path) = n.view.list := by
  constructor
  · intro x hx
    refine hk.entriesIn (h.inventory.canRead x (List.mem_cons_of_mem _ hx)) fun p hp hmem => ?_
    rw [List.mem_singleton.1 hmem] at hp
    exact h.inventory.path?_ne_of_cons hx hp
  · funext b
    refine h.inventory.entriesAt_keep hk fun hmem => ?_
    exact h.inventory.separate _ (List.mem_cons_self ..) b
      (congrArg some (List.mem_singleton.1 hmem).symm)

/-- New files come to hand in the place of one. -/
theorem Sound.replaceFile (h : n.Sound (.file f :: hands)) {v : Volume}
    (hl : n.volume.Leads n.holdings.scratch [f.path] v) {files : List ScratchFile}
    (hnodup : files.Nodup)
    (hfiles : ∀ g ∈ files, n.volume.item? g.path = none ∧ ∃ es, v.HasEntries g.path es) :
    n.Yields hands (files.map .file ++ hands) n.view { n with volume := v } := by
  have hinv : v.Inventory n.holdings.scratch n.holdings.list
      (files.map .file ++ hands ++ n.payloads) := by
    rw [List.append_assoc]
    exact h.inventory.of_cons.files_append (h.inventory.release hl) (fun _ => rfl) hnodup hfiles
  obtain ⟨hkept, hlists⟩ := h.entriesIn_file hl.keeps
  have hy := h.yields_of_volume v n.holdings hinv hkept
  rw [hlists] at hy
  exact hy

theorem Sound.release_file (h : n.Sound (.file f :: hands)) :
    n.Yields hands hands n.view (n.onDisk f.release).2 := by
  obtain ⟨v, hrun, hl⟩ := ScratchFile.run_release h.inventory.ready f
  rw [onDisk, hrun]
  exact h.replaceFile hl List.nodup_nil (by simp)

/-- The end of a payload in hand. -/
theorem Sound.releasePayload (h : n.Sound (x :: hands)) :
    n.Yields hands hands n.view (n.releasePayload x) := by
  cases x with
  | entries batch => exact h.of_cons.yields hands
  | file f => exact h.release_file

/-- A new file comes to hand. -/
theorem Sound.newFile (h : n.Sound hands) {v : Volume}
    (hl : n.volume.Leads n.holdings.scratch [] v) (hfree : n.volume.item? f.path = none)
    (hf : v.HasEntries f.path es) :
    n.Yields hands (.file f :: hands) n.view { n with volume := v } ∧
      v.entriesIn (.file f) = es := by
  have hkept : ∀ x ∈ hands ++ n.payloads, v.entriesIn x = n.volume.entriesIn x := fun x hx =>
    hl.keeps.entriesIn (h.inventory.canRead x hx) fun _ _ => List.not_mem_nil
  have hlists : (fun b => v.entriesAt (n.holdings.list b).path) = n.view.list := by
    funext b
    exact h.inventory.entriesAt_keep hl.keeps List.not_mem_nil
  have hinv : v.Inventory n.holdings.scratch n.holdings.list
      ((.file f :: hands) ++ n.payloads) := h.inventory.file_cons hl hfree hf
  have hy := h.yields_of_volume v n.holdings hinv hkept
  rw [hlists] at hy
  exact ⟨hy, hf.entriesAt_eq⟩

/-! ### Requests -/

theorem queues_payloadOfContent (n : Node) (content : Content) :
    (n.payloadOfContent content).2.queues = n.queues := by
  cases content <;> rfl

theorem inOrder_push_perm (q : Queues) (r : Request) :
    (q.push r).inOrder.Perm (r :: q.inOrder) := by
  rw [List.perm_iff_count]
  intro a
  cases ho : r.origin <;> cases hp : r.payload <;>
    simp only [Queues.push, Queues.inOrder, ho, hp, List.count_append, List.count_cons,
      List.count_nil] <;> omega

/-- A payload in hand becomes a request that waits. -/
theorem Sound.push (h : n.Sound (x :: hands)) {r : Request} (hr : r.payload = x) :
    n.Yields hands hands (n.view.queue (n.errand r)) (n.push r) := by
  have hperm := inOrder_push_perm n.queues r
  have hsame : n.SameFiles (n.push r) := ⟨rfl, rfl, rfl, rfl⟩
  refine h.yields_of_perm hsame ?_ h.named (Nat.le_refl _) ?_ rfl
  · have hpayloads : (n.push r).payloads.Perm (x :: n.payloads) := by
      rw [payloads, payloads, ← hr, ← List.cons_append, ← List.map_cons]
      exact (hperm.map _).append_right _
    exact (hpayloads.append_left hands).trans List.perm_middle
  · rw [view, Multiset.cons_coe, Multiset.coe_eq_coe]
    exact hperm.map n.errand

theorem entryFlights_eq_none {id : MessageId}
    (h : ∀ f ∈ n.flights, ¬(f.sender = .entries ∧ f.id = id)) :
    n.entryFlights.attempts[id]? = none := by
  by_contra hc
  obtain ⟨a, ha⟩ := Option.ne_none_iff_exists'.1 hc
  refine h ⟨.entries, id, a.operation, .entries a.payload⟩ ?_ ⟨rfl, rfl⟩
  exact List.mem_append_left _ (List.mem_map.2 ⟨(id, a), InFlight.mem_toList_iff.2 ha, rfl⟩)

theorem fileFlights_eq_none {id : MessageId}
    (h : ∀ f ∈ n.flights, ¬(f.sender = .files ∧ f.id = id)) :
    n.fileFlights.attempts[id]? = none := by
  by_contra hc
  obtain ⟨a, ha⟩ := Option.ne_none_iff_exists'.1 hc
  refine h ⟨.files, id, a.operation, .file a.payload⟩ ?_ ⟨rfl, rfl⟩
  exact List.mem_append_right _ (List.mem_map.2 ⟨(id, a), InFlight.mem_toList_iff.2 ha, rfl⟩)

/-- A name that was not made up before is not in flight. -/
theorem not_flying (h : ∀ f ∈ n.flights, ∃ k < n.serial, f.id = .ofSerial k) :
    n.entryFlights.attempts[(.ofSerial n.serial : MessageId)]? = none ∧
      n.fileFlights.attempts[(.ofSerial n.serial : MessageId)]? = none := by
  have hnew : ∀ f ∈ n.flights, f.id ≠ .ofSerial n.serial := by
    intro f hf hid
    obtain ⟨k, hk, hname⟩ := h f hf
    exact Nat.ne_of_lt hk (Ident.ofSerial_injective (hname.symm.trans hid))
  constructor
  · exact entryFlights_eq_none fun f hf hc => hnew f hf hc.2
  · exact fileFlights_eq_none fun f hf hc => hnew f hf hc.2

/-- With a message in flight goes its payload. -/
theorem payloads_perm {m : Flight} (hqueues : n'.queues = n.queues)
    (hflights : n'.flights.Perm (m :: n.flights)) : n'.payloads.Perm (m.payload :: n.payloads) := by
  rw [payloads, payloads, hqueues]
  exact ((hflights.map Flight.payload).append_left _).trans List.perm_middle

theorem flights_takeOff_perm (h : ∀ f ∈ n.flights, ∃ k < n.serial, f.id = .ofSerial k)
    (task : Task) (x : Payload) (serial : Nat) :
    (({ n with serial } : Node).takeOff (.ofSerial n.serial) task x).flights.Perm
      (⟨x.engine, .ofSerial n.serial, task.operation, x⟩ :: n.flights) := by
  obtain ⟨hentries, hfiles⟩ := not_flying h
  cases x with
  | entries batch =>
    exact ((InFlight.toList_register_perm hentries).map _).append_right _
  | file f =>
    refine ((InFlight.toList_register_perm hfiles).map _).append_left _ |>.trans ?_
    exact List.perm_middle

/-- The name of a message that takes off was made up by the node. -/
theorem named_takeOff (h : ∀ f ∈ n.flights, ∃ k < n.serial, f.id = .ofSerial k) (task : Task)
    (x : Payload) {serial : Nat} (hserial : n.serial < serial) :
    ∀ f ∈ (({ n with serial } : Node).takeOff (.ofSerial n.serial) task x).flights,
      ∃ k < serial, f.id = .ofSerial k := by
  intro f hf
  rcases List.mem_cons.1 ((flights_takeOff_perm h task x serial).mem_iff.1 hf) with rfl | hf
  · exact ⟨n.serial, hserial, rfl⟩
  · obtain ⟨k, hk, hname⟩ := h f hf
    exact ⟨k, Nat.lt_trans hk hserial, hname⟩

/-- A message that takes off leaves everything else of the node what it is. -/
theorem takeOff_same (n : Node) (id : MessageId) (task : Task) (x : Payload) :
    n.SameFiles (n.takeOff id task x) ∧ (n.takeOff id task x).queues = n.queues ∧
      (n.takeOff id task x).serial = n.serial := by
  cases x <;> exact ⟨⟨rfl, rfl, rfl, rfl⟩, rfl, rfl⟩

/-- A payload in hand takes off under a new name. -/
theorem Sound.launch (h : n.Sound (x :: hands)) (task : Task) {serial : Nat}
    (hserial : n.serial < serial) (kept : List Payload) :
    n.Yields kept hands
      (n.view.fly ⟨x.engine, .ofSerial n.serial, task.operation, n.entriesIn x⟩)
      (({ n with serial } : Node).takeOff (.ofSerial n.serial) task x) := by
  have hperm := flights_takeOff_perm h.named task x serial
  obtain ⟨hsame, hqueues, hserial'⟩ :=
    ({ n with serial } : Node).takeOff_same (.ofSerial n.serial) task x
  have hsame' : n.SameFiles (({ n with serial } : Node).takeOff (.ofSerial n.serial) task x) :=
    ⟨hsame.peer, hsame.keys, hsame.holdings, hsame.volume⟩
  refine h.yields_of_perm hsame' ?_ ?_ (hserial.le.trans_eq hserial'.symm) (by rw [hqueues]; rfl)
    ?_
  · exact ((payloads_perm hqueues hperm).append_left hands).trans List.perm_middle
  · rw [hserial']
    exact named_takeOff h.named task x hserial
  · rw [view, Multiset.cons_coe, Multiset.coe_eq_coe]
    exact hperm.map n.carried

/-! ### Reports -/

/-- No two messages in flight have the same sender and the same name. -/
theorem nodup_names (n : Node) : (n.view.flying.map fun m => (m.sender, m.id)).Nodup := by
  have hentries := n.entryFlights.nodup_names.map (f := fun id => (Engine.entries, id))
    fun _ _ h => (Prod.ext_iff.1 h).2
  have hfiles := n.fileFlights.nodup_names.map (f := fun id => (Engine.files, id))
    fun _ _ h => (Prod.ext_iff.1 h).2
  rw [List.map_map] at hentries hfiles
  rw [view, Multiset.map_coe, Multiset.coe_nodup, List.map_map, flights, List.map_append,
    List.map_map, List.map_map]
  refine hentries.append hfiles fun name he hf => ?_
  obtain ⟨_, -, rfl⟩ := List.mem_map.1 he
  obtain ⟨_, -, hname⟩ := List.mem_map.1 hf
  exact Engine.noConfusion (Prod.ext_iff.1 hname).1

/-- A report on a message that is not in flight finds nothing. -/
theorem land_of_not_flying {sender : Engine} {id : MessageId}
    (h : ∀ f ∈ n.flights, ¬(f.sender = sender ∧ f.id = id)) : n.land sender id = (none, n) := by
  cases sender with
  | entries =>
    rw [land, InFlight.complete_of_none (entryFlights_eq_none h)]
    rfl
  | files =>
    rw [land, InFlight.complete_of_none (fileFlights_eq_none h)]
    rfl

/-- A report on a message in flight takes the message out. -/
theorem land_flying {m : Flight} (hm : m ∈ n.flights) :
    ∃ n', n.land m.sender m.id = (some (m.operation, m.payload), n') ∧ n.SameFiles n' ∧
      n'.queues = n.queues ∧ n'.serial = n.serial ∧ n.flights.Perm (m :: n'.flights) := by
  rcases List.mem_append.1 hm with hm | hm
  · obtain ⟨⟨id, a⟩, ha, rfl⟩ := List.mem_map.1 hm
    have hget := InFlight.mem_toList_iff.1 ha
    refine ⟨{ n with entryFlights := (n.entryFlights.complete id).2 }, ?_, ⟨rfl, rfl, rfl, rfl⟩,
      rfl, rfl, ?_⟩
    · simp only [land, InFlight.complete] at hget ⊢
      rw [hget]
      rfl
    · exact ((InFlight.toList_complete_perm hget).map _).append_right _
  · obtain ⟨⟨id, a⟩, ha, rfl⟩ := List.mem_map.1 hm
    have hget := InFlight.mem_toList_iff.1 ha
    refine ⟨{ n with fileFlights := (n.fileFlights.complete id).2 }, ?_, ⟨rfl, rfl, rfl, rfl⟩,
      rfl, rfl, ?_⟩
    · simp only [land, InFlight.complete] at hget ⊢
      rw [hget]
      rfl
    · exact ((InFlight.toList_complete_perm hget).map _).append_left _ |>.trans List.perm_middle

/-- The payload of a message that was taken out is in hand. -/
theorem Sound.land (h : n.Sound hands) {m : Flight} (hm : m ∈ n.flights) :
    ∃ rest n', n.land m.sender m.id = (some (m.operation, m.payload), n') ∧
      n.view.flying = n.carried m ::ₘ rest ∧
      n.Yields (m.payload :: hands) (m.payload :: hands) { n.view with flying := rest } n' := by
  obtain ⟨n', hland, hsame, hqueues, hserial, hperm⟩ := land_flying hm
  refine ⟨(n'.flights.map n.carried : List Carried), n', hland, ?_,
    h.yields_of_perm hsame ?_ ?_ (Nat.le_of_eq hserial.symm) (by rw [hqueues]; rfl) rfl⟩
  · rw [view, Multiset.cons_coe, Multiset.coe_eq_coe]
    exact hperm.map n.carried
  · have hpayloads := payloads_perm hqueues.symm hperm
    exact ((hpayloads.append_left hands).trans List.perm_middle).symm
  · intro f hf
    rw [hserial]
    exact h.named f (hperm.mem_iff.2 (List.mem_cons_of_mem _ hf))

/-- Undelivered entries are put by. -/
theorem Sound.requeue (h : n.Sound hands) (o : Operation) (entries : List Entry) :
    n.Yields hands hands (n.view.append (.outbound o) entries) (n.requeue o entries) := by
  obtain ⟨k, n', hrun, hy⟩ := h.append (.outbound o) entries (·.appendOutbound o entries)
    fun _ => rfl
  rw [Node.requeue, hrun]
  exact hy

/-- The entries of a file can be read. -/
theorem Sound.run_entries (h : n.Sound hands) (hf : .file f ∈ hands) :
    n.tryOnDisk f.entries = (.ok (n.entriesIn (.file f)), n) := by
  have hread := h.inventory.canRead _ (List.mem_append_left n.payloads hf)
  exact tryOnDisk_ok (Bulk.run_readEntries h.inventory.ready.schedule hread.hasEntries)

/-- The payload of an undelivered message is put by. -/
theorem Sound.takeBack (h : n.Sound (x :: hands)) (o : Operation) :
    n.Yields (x :: hands) (x :: hands) (n.view.append (.outbound o) (n.entriesIn x))
      (n.takeBack o x) := by
  cases x with
  | entries batch => exact h.requeue o batch
  | file f =>
    rw [Node.takeBack, h.run_entries (List.mem_cons_self ..)]
    exact h.requeue o _

/-- A report settles a message in flight and means nothing otherwise. -/
theorem Sound.report (h : n.Sound hands) (sender : Engine) (id : MessageId) (delivered : Bool) :
    (n.report sender id delivered = n ∧
        ∀ m ∈ n.view.flying, ¬(m.sender = sender ∧ m.id = id)) ∨
      ∃ m rest, n.view.flying = m ::ₘ rest ∧ m.sender = sender ∧ m.id = id ∧
        n.Yields hands hands
          (View.settle { n.view with flying := rest } m.operation m.entries delivered)
          (n.report sender id delivered) := by
  by_cases hm : ∃ m ∈ n.flights, m.sender = sender ∧ m.id = id
  · obtain ⟨m, hm, rfl, rfl⟩ := hm
    right
    obtain ⟨rest, n₁, hland, hflying, hy₁⟩ := h.land hm
    refine ⟨n.carried m, rest, hflying, rfl, rfl, ?_⟩
    have hreport : n.report m.sender m.id delivered =
        (if delivered then n₁ else n₁.takeBack m.operation m.payload).releasePayload
          m.payload := by
      rw [Node.report, hland]
    have hentries : n₁.entriesIn m.payload = n.entriesIn m.payload :=
      hy₁.kept_eq _ (List.mem_cons_self ..)
    rw [hreport]
    -- the payload is in hand from here on: it is put by if need be, and released
    cases delivered with
    | true =>
      have hy₂ := hy₁.sound.releasePayload
      rw [hy₁.view_eq] at hy₂
      exact (hy₁.mono (List.subset_cons_self ..)).trans hy₂
    | false =>
      have hy₂ := hy₁.sound.takeBack m.operation
      have hy₃ := hy₂.sound.releasePayload
      rw [hy₂.view_eq, hy₁.view_eq, hentries] at hy₃
      exact ((hy₁.trans hy₂).mono (List.subset_cons_self ..)).trans hy₃
  · left
    have hnot : ∀ f ∈ n.flights, ¬(f.sender = sender ∧ f.id = id) := fun f hf hc =>
      hm ⟨f, hf, hc⟩
    refine ⟨?_, fun m hm' => ?_⟩
    · rw [Node.report, land_of_not_flying hnot]
    · obtain ⟨f, hf, rfl⟩ := List.mem_map.1 (Multiset.mem_coe.1 hm')
      exact hnot f hf

/-! ### Splitting -/

theorem path?_of_mem_payloadOf {batch : List Entry} (hx : payloadOf batch = some x) :
    x.path? = none := by
  rw [payloadOf] at hx
  split at hx
  · cases hx
  · cases hx
    rfl

/-- A batch in memory is split without a change to the node. -/
theorem Sound.split_entries {batch : List Entry} (h : n.Sound (.entries batch :: hands))
    (path : Key) :
    let levels := (List.range path.length).map fun i => payloadOf (atLevel path i batch)
    let owned := payloadOf (ownedBy path batch)
    n.split path (.entries batch) = (some (levels, owned), n) ∧
      n.Sound (levels.filterMap id ++ (owned.toList ++ hands)) := by
  refine ⟨?_, ?_⟩
  · simp only [Node.split, splitOwned_eq, List.map_map, Function.comp_def]
  · refine (h.of_cons.entries_append fun x hx => ?_).entries_append fun x hx => ?_
    · exact path?_of_mem_payloadOf (Option.mem_toList.1 hx)
    · obtain ⟨level, hlevel, hx⟩ := List.mem_filterMap.1 hx
      obtain ⟨i, -, rfl⟩ := List.mem_map.1 hlevel
      exact path?_of_mem_payloadOf hx

/-! ### Applying -/

/-- An identifier is made up; nothing else changes. -/
theorem Sound.tick (h : n.Sound hands) (kept : List Payload) :
    n.Yields kept hands n.view { n with serial := n.serial + 1 } := by
  refine ⟨⟨h.inventory, fun f hf => ?_⟩, rfl, fun _ _ => rfl, Nat.le_succ _⟩
  obtain ⟨k, hk, hname⟩ := h.named f hf
  exact ⟨k, Nat.lt_succ_of_lt hk, hname⟩

/-- A payload in hand becomes a request raised here. -/
theorem Sound.submit (h : n.Sound (x :: hands)) (o : Operation) :
    n.Yields hands hands (n.view.queue ⟨o, .here, n.entriesIn x, x.isFile⟩)
      (n.submit o x) := by
  have htick := h.tick hands
  exact htick.trans (htick.sound.push (r := ⟨.ofSerial n.serial, o, x, .here⟩) rfl)

/-- A payload in hand becomes a delivered request. -/
theorem Sound.submitFrom (h : n.Sound (x :: hands)) (o : Operation) (message : MessageId)
    (parent : RequestId) (viaReplica : Bool) :
    n.Yields hands hands
      (n.view.queue ⟨o, .peer message parent viaReplica, n.entriesIn x, x.isFile⟩)
      (n.submitFrom o x message parent viaReplica) := by
  have htick := h.tick hands
  exact htick.trans (htick.sound.push
    (r := ⟨.ofSerial n.serial, o, x, .peer message parent viaReplica⟩) rfl)

/-- Changes of the store leave the files what they are. -/
theorem Sound.setHoldings (h : n.Sound hands) {g : Holdings} (hlist : g.list = n.holdings.list)
    (hscratch : g.scratch = n.holdings.scratch) :
    n.Yields hands hands (n.view.setRows g.store.state) { n with holdings := g } := by
  have hinv : n.volume.Inventory g.scratch g.list (hands ++ n.payloads) := by
    rw [hlist, hscratch]
    exact h.inventory
  have hkept : ∀ x ∈ hands ++ n.payloads, n.volume.entriesIn x = n.volume.entriesIn x :=
    fun _ _ => rfl
  have hy := h.yields_of_volume n.volume g hinv hkept
  rw [hlist] at hy
  exact hy

theorem list_add (g : Holdings) (es : List Entry) : (g.add es).2.list = g.list := by
  funext b
  cases b with
  | inbound => rfl
  | outbound o => cases o <;> rfl

theorem list_remove (g : Holdings) (es : List Entry) : (g.remove es).2.list = g.list := by
  funext b
  cases b with
  | inbound => rfl
  | outbound o => cases o <;> rfl

/-- What updating does to the holdings. -/
theorem applyUpdate_eq (g : Holdings) (path : Key) (w : View) (hw : w.rows = g.store.state)
    (es : List Entry) :
    (g.applyUpdate path w.keys es).1 = w.moved path es ∧
      (g.applyUpdate path w.keys es).2.list = g.list ∧
      (g.applyUpdate path w.keys es).2.scratch = g.scratch ∧
      (g.applyUpdate path w.keys es).2.store.state =
        (((w.staying path es).foldl .upsert w.rows).deleteAll
          ((w.leaving path es).map (·.id))).2 := by
  simp only [Holdings.applyUpdate, List.partition_eq_filter_filter, View.moved, View.staying,
    View.leaving, hw]
  have hleaving : (es.filter fun e => !path.owns (Holdings.rekey w.keys e).key) =
      es.filter (not ∘ fun e => path.owns (Holdings.rekey w.keys e).key) := rfl
  rw [hleaving]
  generalize es.filter (fun e => path.owns (Holdings.rekey w.keys e).key) = stay
  generalize es.filter (not ∘ fun e => path.owns (Holdings.rekey w.keys e).key) = leave
  refine ⟨rfl, ?_⟩
  -- the holdings are only touched for a part that is not empty
  cases stay with
  | nil =>
    cases leave with
    | nil => exact ⟨rfl, rfl, rfl⟩
    | cons e es => exact ⟨list_remove _ _, rfl, rfl⟩
  | cons e es =>
    cases leave with
    | nil => exact ⟨list_add _ _, rfl, rfl⟩
    | cons e' es' => exact ⟨(list_remove _ _).trans (list_add _ _), rfl, rfl⟩

/-- Owned entries are applied. -/
theorem Sound.applyOwned (h : n.Sound hands) (path : Key) (o : Operation) (es : List Entry) :
    n.Yields hands hands (n.view.apply path o es) (n.applyOwned path o es) := by
  cases es with
  | nil =>
    have hview : n.view.apply path o [] = n.view := by
      cases o <;> simp [View.apply, View.append, View.moved, View.staying, View.leaving,
        Store.Rows.deleteAll]
    rw [hview]
    exact h.yields hands
  | cons e es =>
    cases o with
    | insert =>
      obtain ⟨k, n', hrun, hy⟩ := h.append .inbound (e :: es) (·.appendInbound (e :: es))
        fun _ => rfl
      rw [Node.applyOwned, if_neg (by simp)]
      simp only [hrun]
      exact hy
    | update =>
      obtain ⟨hmoved, hlist, hscratch, hrows⟩ :=
        applyUpdate_eq n.holdings path n.view rfl (e :: es)
      have hy := h.setHoldings hlist hscratch
      rw [hrows] at hy
      -- the moved entries are submitted only if there are any, here and in `View.apply`
      have hrun : n.applyOwned path .update (e :: es) =
          if (n.view.moved path (e :: es)).isEmpty then
            { n with holdings := (n.holdings.applyUpdate path n.view.keys (e :: es)).2 }
          else ({ n with
              holdings := (n.holdings.applyUpdate path n.view.keys (e :: es)).2 } : Node).submit
            .insert (.entries (n.view.moved path (e :: es))) := by
        rw [← hmoved]
        rfl
      rw [hrun, View.apply]
      simp only [List.isEmpty_iff]
      split
      · exact hy
      · have hsubmit := (hy.sound.entries_cons (n.view.moved path (e :: es))).submit .insert
        rw [hy.view_eq] at hsubmit
        exact hy.trans hsubmit
    | delete => exact h.setHoldings (list_remove n.holdings (e :: es)) rfl

/-- A payload in hand is applied. -/
theorem Sound.applyPayload (h : n.Sound (x :: hands)) (path : Key) (o : Operation) :
    n.Yields (x :: hands) (x :: hands) (n.view.apply path o (n.entriesIn x))
      (n.applyPayload path o x) := by
  cases x with
  | entries batch => exact h.applyOwned path o batch
  | file f =>
    rw [Node.applyPayload, applyFile, h.run_entries (List.mem_cons_self ..)]
    exact h.applyOwned path o _

/-! ### Retrying and merging -/

/-- An empty outbound list gives no file. -/
theorem Sound.takeOutbound_nil (h : n.Sound hands) {o : Operation}
    (hnil : n.view.list (.outbound o) = []) :
    ∃ n', n.tryAsk (·.takeOutbound o) = (.ok none, n') ∧ n.Yields hands hands n.view n' := by
  have hholds := h.inventory.holds (.outbound o)
  rw [show n.volume.entriesAt _ = n.view.list (.outbound o) from rfl, hnil] at hholds
  obtain ⟨v, hrun, hl⟩ := hholds.takeInto_nil h.inventory.ready
  refine ⟨_, tryAsk_ok ((TryDisk.run_bind_ok hrun).trans rfl), ?_⟩
  have hholds' := hholds.keep hl.keeps List.not_mem_nil
  have hy := h.setList (l := n.holdings.list (.outbound o)) (hl.mono (List.nil_subset _)) rfl
    hholds'
  rw [← hnil, View.setList_list] at hy
  exact hy

/-- The entries of an outbound list come to hand in a file. -/
theorem Sound.takeOutbound (h : n.Sound hands) {o : Operation}
    (hne : n.view.list (.outbound o) ≠ []) :
    ∃ f n', n.tryAsk (·.takeOutbound o) = (.ok (some f), n') ∧
      n.Yields hands (.file f :: hands) (n.view.setList (.outbound o) []) n' ∧
      n'.entriesIn (.file f) =
        (n.view.list (.outbound o)).filter fun e => Bulk.Line.isEncodable e := by
  have hholds := h.inventory.holds (.outbound o)
  obtain ⟨f, v, hrun, hl, hfree, hholds', hf⟩ := hholds.takeInto h.inventory.ready hne
  refine ⟨f, _, tryAsk_ok ((TryDisk.run_bind_ok hrun).trans rfl), ?_, hf.entriesAt_eq⟩
  let l := (n.holdings.list (.outbound o)).renewed
  have hy := h.setList (l := l) hl rfl hholds'
  have hinv := h.inventory.setList (l := l) hl rfl hholds'
  have hnew : v.Inventory n.holdings.scratch
      (Function.update n.holdings.list (.outbound o) l) ([f].map .file ++ (hands ++ n.payloads)) :=
    h.inventory.files_append hinv (Volume.Inventory.path_update rfl) (by simp)
      (by simpa using ⟨hfree, _, hf⟩)
  rw [← Holdings.list_setList, ← n.holdings.scratch_setList (.outbound o) l] at hnew
  exact ⟨⟨hnew, hy.sound.named⟩, hy.view_eq, hy.kept_eq, hy.serial_le⟩

theorem Sound.hasInbound (h : n.Sound hands) :
    ∃ n', n.ask (·.hasInbound) = (!(n.view.list .inbound).isEmpty, n') ∧
      n.Yields hands hands n.view n' := by
  obtain ⟨l, hrun, hy⟩ := h.counted .inbound
  have hempty : (n.holdings.list .inbound).isEmpty.run n.volume =
      (((n.view.list .inbound).isEmpty, l), n.volume) := by
    rw [BulkList.isEmpty, Disk.run_bind_eq hrun]
    cases n.view.list .inbound <;> rfl
  exact ⟨_, ask_eq ((Disk.run_bind_eq hempty).trans rfl), hy⟩

/-- The delivered entries are merged into the store. -/
theorem Sound.merge (h : n.Sound hands) : n.Yields hands hands n.view.merge n.merge := by
  obtain ⟨n₁, hask, hy₁⟩ := h.hasInbound
  rw [Node.merge, hask]
  cases hnil : n.view.list .inbound with
  | nil =>
    have hview : n.view.merge = n.view := by
      rw [View.merge, hnil, ← hnil, View.setList_list, hnil]
      rfl
    rw [hview]
    exact hy₁
  | cons e es =>
    have hholds := hy₁.sound.inventory.holds .inbound
    rw [show n₁.volume.entriesAt _ = n₁.view.list .inbound from rfl, hy₁.view_eq, hnil] at hholds
    obtain ⟨v, hrun, hl, hholds'⟩ := hholds.takeAll hy₁.sound.inventory.ready
    let l := (n₁.holdings.list .inbound).renewed
    have hy₂ := hy₁.sound.setList (l := l) hl rfl hholds'
    have hy₃ := hy₂.sound.setHoldings
      (g := ((n₁.holdings.setList .inbound l).add (e :: es)).2) (list_add _ _) rfl
    have hmerge : n₁.tryAsk (·.mergeInbound) = (.ok (e :: es).length,
        { n₁ with holdings := ((n₁.holdings.setList .inbound l).add (e :: es)).2, volume := v }) :=
      tryAsk_ok ((TryDisk.run_bind_ok hrun).trans rfl)
    -- the list was emptied before the rows change, but neither depends on the other
    have hview : (n₁.view.setList .inbound []).setRows
        ((n₁.holdings.setList .inbound l).add (e :: es)).2.store.state = n.view.merge := by
      rw [View.merge, hnil, hy₁.view_eq]
      change View.setRows _ ((e :: es).foldl .upsert n₁.view.rows) = _
      rw [hy₁.view_eq]
    rw [hy₂.view_eq, hview] at hy₃
    simp only [List.isEmpty_cons, Bool.not_false, hmerge]
    exact (hy₁.trans hy₂).trans hy₃

/-- Looking for undelivered entries changes nothing. -/
theorem Sound.hasOutboundAmong (h : n.Sound hands) (os : List Operation) :
    ∃ g, (n.holdings.hasOutboundAmong os).run n.volume =
        ((os.any fun o => !(n.view.list (.outbound o)).isEmpty, g), n.volume) ∧
      n.Yields hands hands n.view { n with holdings := g } := by
  induction os generalizing n with
  | nil => exact ⟨n.holdings, rfl, h.yields hands⟩
  | cons o os ih =>
    obtain ⟨l, hrun, hy⟩ := h.counted (.outbound o)
    have hcount : (n.holdings.outboundCountOf o).run n.volume =
        (((n.view.list (.outbound o)).length, n.holdings.setList (.outbound o) l), n.volume) :=
      (Disk.run_bind_eq hrun).trans rfl
    rw [Holdings.hasOutboundAmong, Disk.run_bind_eq hcount]
    cases hnil : n.view.list (.outbound o) with
    | nil =>
      obtain ⟨g, hrest, hy'⟩ := ih hy.sound
      rw [hy.view_eq] at hrest hy'
      refine ⟨g, ?_, hy.trans hy'⟩
      rw [List.any_cons, hnil]
      exact hrest
    | cons e es =>
      refine ⟨n.holdings.setList (.outbound o) l, ?_, hy⟩
      rw [List.any_cons, hnil]
      rfl

/-- Whether the outbound lists are to be sent again. -/
def isRetryDue (n : Node) : Bool :=
  !(n.lastRetry.any fun t => n.clock - t < n.idlePoll) &&
    Operation.all.any fun o => !(n.view.list (.outbound o)).isEmpty

theorem Sound.retryDue (h : n.Sound hands) :
    ∃ n', n.retryDue = (n.isRetryDue, n') ∧ n.Yields hands hands n.view n' := by
  rw [Node.retryDue, isRetryDue]
  cases hrecent : n.lastRetry.any fun t => n.clock - t < n.idlePoll with
  | true => exact ⟨n, by simp, h.yields hands⟩
  | false =>
    obtain ⟨g, hrun, hy⟩ := h.hasOutboundAmong Operation.all
    exact ⟨_, by simpa using ask_eq hrun, hy⟩

end TrieOverlay.Node
