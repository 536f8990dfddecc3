import TrieOverlay.Proofs.Store.Replay

/-!
# A batch of updates and its entries one by one

`Holdings.applyUpdate` regroups its entries: all that stay are put before those that leave are
removed.  Applied one by one (`Holdings.applySingly`) they are put and removed in the order of the
list.  Beside the store stands the ledger that it keeps, with the same two ways to go through the
list: `Ledger.regrouped` and the fold of `Ledger.revise`.

Both put the same entries in the same order, so the addresses agree whatever the list is.  Of an
identifier

* one by one, the last entry decides;
* regrouped, one entry that leaves is enough for it to be gone.

So the two agree exactly on the lists in which an identifier that leaves does so for good
(`Holdings.Settled`): its last entry leaves.
-/

namespace TrieOverlay

variable {path : Key} {keys : KeyScheme} {es : List Entry} {e : Entry} {id : EntryId}

namespace Holdings

/-- Whether an updated entry leaves a peer at a path, as the key of its payload is not the
peer's. -/
def leaves (path : Key) (keys : KeyScheme) (e : Entry) : Bool :=
  !path.owns (rekey keys e).key

/-- Every identifier that leaves does so with its last entry. -/
def Settled (path : Key) (keys : KeyScheme) (es : List Entry) : Prop :=
  ∀ e ∈ es, leaves path keys e → ∀ last ∈ BulkList.lastWithId? es e.id, leaves path keys last

instance : Decidable (Settled path keys es) :=
  inferInstanceAs (Decidable (∀ e ∈ es, _ → ∀ last ∈ _, _))

@[simp] theorem id_rekey (keys : KeyScheme) (e : Entry) : (rekey keys e).id = e.id := rfl

/-- The holdings after updated entries that are applied one by one. -/
def applySingly (h : Holdings) (path : Key) (keys : KeyScheme) (es : List Entry) : Holdings :=
  es.foldl (fun h e => (h.applyUpdate path keys [e]).2) h

end Holdings

open Holdings

/-! ### Two ways through the list -/

namespace Ledger

variable {m : Ledger}

/-- The ledger after one updated entry. -/
def revise (path : Key) (keys : KeyScheme) (m : Ledger) (e : Entry) : Ledger :=
  if leaves path keys e then m.erase e.id else m.put (rekey keys e)

/-- The ledger after updated entries of which those that stay are put first. -/
def regrouped (path : Key) (keys : KeyScheme) (m : Ledger) (es : List Entry) : Ledger :=
  (es.filter (leaves path keys)).foldl (fun m e => m.erase e.id)
    (((es.filter fun e => !leaves path keys e).map (rekey keys)).foldl put m)

theorem addresses_foldl_erase (m : Ledger) (es : List Entry) :
    (es.foldl (fun m e => m.erase e.id) m).addresses = m.addresses := by
  induction es generalizing m with
  | nil => rfl
  | cons e es ih => exact ih (m.erase e.id)

theorem shown_foldl_erase (m : Ledger) (es : List Entry) :
    (es.foldl (fun m e => m.erase e.id) m).shown = m.shown := by
  funext e
  rw [shown, shown, addresses_foldl_erase]

/-- The same entries are put in the same order. -/
theorem addresses_regrouped (m : Ledger) (es : List Entry) :
    (m.regrouped path keys es).addresses = (es.foldl (revise path keys) m).addresses := by
  rw [regrouped, addresses_foldl_erase]
  induction es using List.reverseRecOn with
  | nil => rfl
  | append_singleton es e ih =>
    rw [List.foldl_append, List.foldl_cons, List.foldl_nil, revise, List.filter_append]
    by_cases hleaves : leaves path keys e
    · simpa [hleaves, erase] using ih
    · simp [hleaves, put, ih]

/-- One by one, the last entry of an identifier decides. -/
theorem getElem?_foldl_revise (m : Ledger) (es : List Entry) (id : EntryId) :
    (es.foldl (revise path keys) m).entries[id]? =
      match BulkList.lastWithId? es id with
      | none => m.entries[id]?
      | some last => if leaves path keys last then none else some (rekey keys last) := by
  induction es using List.reverseRecOn with
  | nil => rfl
  | append_singleton es e ih =>
    rw [List.foldl_append, List.foldl_cons, List.foldl_nil, BulkList.lastWithId?_append_singleton,
      revise]
    by_cases hid : e.id = id
    · by_cases hleaves : leaves path keys e
      · simp [hleaves, getElem?_erase, hid]
      · simp [hleaves, getElem?_put, id_rekey, hid]
    · rw [if_neg hid, ← ih]
      by_cases hleaves : leaves path keys e
      · simp [hleaves, getElem?_erase, hid]
      · simp [hleaves, getElem?_put, id_rekey, hid]

/-- If no entry of an identifier leaves, the last of those that are put is the last of all. -/
theorem lastWithId?_staying (hstays : ∀ e ∈ es, e.id = id → ¬ leaves path keys e) :
    BulkList.lastWithId? ((es.filter fun e => !leaves path keys e).map (rekey keys)) id =
      (BulkList.lastWithId? es id).map (rekey keys) := by
  rw [BulkList.lastWithId?_eq, BulkList.lastWithId?_eq, List.filter_map, List.filter_filter,
    List.getLast?_map]
  congr 2
  refine List.filter_congr fun e he => ?_
  by_cases hid : e.id = id <;> simp [id_rekey, hid, hstays e he]

/-- Regrouped, an identifier is gone if one of its entries leaves. -/
theorem getElem?_regrouped (m : Ledger) (es : List Entry) (id : EntryId) :
    (m.regrouped path keys es).entries[id]? =
      if ∃ e ∈ es, e.id = id ∧ leaves path keys e then none
      else (es.foldl (revise path keys) m).entries[id]? := by
  rw [regrouped, getElem?_foldl_erase, BulkList.isSome_lastWithId?]
  have hiff : id ∈ (es.filter (leaves path keys)).map (·.id) ↔
      ∃ e ∈ es, e.id = id ∧ leaves path keys e := by
    simp only [List.mem_map, List.mem_filter]
    exact exists_congr fun e => ⟨fun ⟨⟨he, hl⟩, hid⟩ => ⟨he, hid, hl⟩,
      fun ⟨he, hid, hl⟩ => ⟨⟨he, hl⟩, hid⟩⟩
  simp only [decide_eq_true_eq, hiff]
  split
  · rfl
  · next hleaving =>
    have hstays : ∀ e ∈ es, e.id = id → ¬ leaves path keys e :=
      fun e he hid hl => hleaving ⟨e, he, hid, hl⟩
    rw [getElem?_foldl_put, lastWithId?_staying hstays, getElem?_foldl_revise]
    cases hlast : BulkList.lastWithId? es id with
    | none => rfl
    | some last =>
      have hnot := hstays last (BulkList.mem_of_lastWithId? hlast)
        (BulkList.id_of_lastWithId? hlast)
      simp [hnot]

/-- An identifier that leaves, but not with its last entry, is what the two ways differ in. -/
theorem regrouped_ne {last : Entry} (he : e ∈ es) (hleaves : leaves path keys e)
    (hlast : BulkList.lastWithId? es e.id = some last) (hstays : ¬ leaves path keys last) :
    (m.regrouped path keys es).entries[e.id]? = none ∧
      (es.foldl (revise path keys) m).entries[e.id]? = some (rekey keys last) := by
  refine ⟨?_, ?_⟩
  · rw [getElem?_regrouped, if_pos ⟨e, he, rfl, hleaves⟩]
  · rw [getElem?_foldl_revise, hlast]
    exact if_neg hstays

theorem regrouped_eq (h : Settled path keys es) (m : Ledger) :
    m.regrouped path keys es = es.foldl (revise path keys) m := by
  have haddresses : (m.regrouped path keys es).addresses =
      (es.foldl (revise path keys) m).addresses := addresses_regrouped m es
  have hentries : (m.regrouped path keys es).entries = (es.foldl (revise path keys) m).entries := by
    ext1 id
    rw [getElem?_regrouped]
    split
    · next hleaving =>
      obtain ⟨e, he, rfl, hl⟩ := hleaving
      obtain ⟨last, hlast⟩ := Option.isSome_iff_exists.1
        ((BulkList.isSome_lastWithId? es e.id).trans (by simpa using ⟨e, he, rfl⟩))
      rw [getElem?_foldl_revise, hlast]
      exact (if_pos (h e he hl last hlast)).symm
    · rfl
  exact congrArg₂ mk hentries haddresses

end Ledger

/-! ### The store -/

namespace Store.Rows

variable {s s' : Store.Rows} {m m' : Ledger}

/-- A ledger has one store that keeps it. -/
theorem Keeps.unique (h : s.Keeps m) (h' : s'.Keeps m) : s = s' := by
  obtain ⟨rows, keyOf, peers⟩ := s
  obtain ⟨rows', keyOf', peers'⟩ := s'
  have hrows : rows = rows' := Std.ExtTreeMap.ext_getElem? fun place =>
    (h.rows place).trans (h'.rows place).symm
  have hkeyOf : keyOf = keyOf' := Std.ExtTreeMap.ext_getElem? fun id =>
    (h.keyOf id).trans (h'.keyOf id).symm
  have hpeers : peers = peers' := Std.ExtTreeMap.ext_getElem? fun p =>
    (h.peers p).trans (h'.peers p).symm
  rw [hrows, hkeyOf, hpeers]

/-- An identifier of which a store shows no entry has none. -/
theorem Keeps.exists_mem_entries (h : s.Keeps m) :
    (∃ e ∈ s.entries, e.id = id) ↔ (m.entries[id]?).isSome := by
  simp only [h.mem_entries, List.mem_map]
  constructor
  · rintro ⟨_, ⟨e, he, rfl⟩, rfl⟩
    exact Option.isSome_iff_exists.2 ⟨e, h.named.mem_list.1 he⟩
  · intro hsome
    obtain ⟨e, he⟩ := Option.isSome_iff_exists.1 hsome
    obtain rfl := h.named id e he
    exact ⟨m.shown e, ⟨e, h.named.mem_list.2 he, rfl⟩, rfl⟩

end Store.Rows

namespace Holdings

variable {h : Holdings} {m : Ledger}

/-- The holdings after an update of some entries, if there are any. -/
def updateSome (h : Holdings) (es : List Entry) : Holdings :=
  if es.isEmpty then h else (h.update es).2

/-- The holdings after a removal of some entries, if there are any. -/
def removeSome (h : Holdings) (es : List Entry) : Holdings :=
  if es.isEmpty then h else (h.remove es).2

theorem state_updateSome (h : Holdings) (es : List Entry) :
    (h.updateSome es).store.state = es.foldl .upsert h.store.state := by
  cases es <;> rfl

theorem state_removeSome (h : Holdings) (es : List Entry) :
    (h.removeSome es).store.state = (h.store.state.deleteAll (es.map (·.id))).2 := by
  cases es <;> rfl

/-- What stays is put, then what leaves is removed, and the latter is returned under its new keys.
The store is only touched for a part that is not empty. -/
theorem applyUpdate_eq (h : Holdings) (path : Key) (keys : KeyScheme) (es : List Entry) :
    h.applyUpdate path keys es = ((es.filter (leaves path keys)).map (rekey keys),
      (h.updateSome ((es.filter fun e => !leaves path keys e).map (rekey keys))).removeSome
        (es.filter (leaves path keys))) := by
  have hstays : (es.filter fun e => !leaves path keys e) =
      es.filter fun e => path.owns (rekey keys e).key := by simp [leaves]
  have hleaves : es.filter (leaves path keys) =
      es.filter (not ∘ fun e => path.owns (rekey keys e).key) := rfl
  unfold applyUpdate updateSome removeSome
  rw [List.partition_eq_filter_filter, hstays, hleaves, List.isEmpty_map]

theorem state_applyUpdate (h : Holdings) (path : Key) (keys : KeyScheme) (es : List Entry) :
    (h.applyUpdate path keys es).2.store.state =
      ((((es.filter fun e => !leaves path keys e).map (rekey keys)).foldl .upsert
        h.store.state).deleteAll ((es.filter (leaves path keys)).map (·.id))).2 := by
  rw [applyUpdate_eq, state_removeSome, state_updateSome]

theorem keeps_applyUpdate (hm : h.store.state.Keeps m) (path : Key) (keys : KeyScheme)
    (es : List Entry) :
    (h.applyUpdate path keys es).2.store.state.Keeps (m.regrouped path keys es) := by
  rw [state_applyUpdate]
  exact ((hm.upserts _).deletes _).2

theorem keeps_applySingly (hm : h.store.state.Keeps m) (path : Key) (keys : KeyScheme)
    (es : List Entry) :
    (h.applySingly path keys es).store.state.Keeps (es.foldl (Ledger.revise path keys) m) := by
  induction es generalizing h m with
  | nil => exact hm
  | cons e es ih =>
    refine ih ?_
    have hone : m.regrouped path keys [e] = m.revise path keys e := by
      by_cases hleaves : leaves path keys e <;> simp [Ledger.regrouped, Ledger.revise, hleaves]
    rw [← hone]
    exact keeps_applyUpdate hm path keys [e]

/-- **A batch of updates equals the updates one by one exactly if what leaves does so for good.**
Whatever the store went through before: the batch leaves it with the same contents as its entries in
the order of the list if and only if every identifier of which an entry leaves has its last entry
leave.  An identifier that comes back within the list is gone after the batch; one by one it has its
last entry. -/
theorem applyUpdate_eq_singly_iff (h : Holdings) (name : String) (past : List Store.Op)
    (hpast : h.store = ((Store.named name).run past).2) (path : Key) (keys : KeyScheme)
    (es : List Entry) :
    ((h.applyUpdate path keys es).2.store.get none = (h.applySingly path keys es).store.get none ↔
      Settled path keys es) ∧
    (Settled path keys es →
      (h.applyUpdate path keys es).2.store.state = (h.applySingly path keys es).store.state) ∧
    ∀ e ∈ es, leaves path keys e → ∀ last ∈ BulkList.lastWithId? es e.id,
      ¬ leaves path keys last →
        (h.applyUpdate path keys es).2.store.find? e.id = none ∧
        ((h.applySingly path keys es).store.find? e.id).map Entry.withoutAddress =
          some (rekey keys last).withoutAddress := by
  have hm : h.store.state.Keeps (Ledger.empty.run past).2 :=
    hpast ▸ ((Store.follows_named name).run past).2.rows
  generalize (Ledger.empty.run past).2 = m at hm
  have hbatch := keeps_applyUpdate hm path keys es
  have hsingly := keeps_applySingly hm path keys es
  have hsettled : Settled path keys es → (h.applyUpdate path keys es).2.store.state =
      (h.applySingly path keys es).store.state := by
    intro hs
    rw [Ledger.regrouped_eq hs] at hbatch
    exact hbatch.unique hsingly
  refine ⟨⟨fun hsame e he hleaves last hlast => ?_, fun hs => ?_⟩, hsettled,
    fun e he hleaves last hlast hstays => ?_⟩
  · by_contra hstays
    obtain ⟨hgone, hthere⟩ := Ledger.regrouped_ne (m := m) he hleaves hlast hstays
    have hshown := hsingly.exists_mem_entries.2 (Option.isSome_iff_exists.2 ⟨_, hthere⟩)
    have hentries : (h.applyUpdate path keys es).2.store.state.entries =
        (h.applySingly path keys es).store.state.entries := hsame
    rw [← hentries, hbatch.exists_mem_entries, hgone] at hshown
    cases hshown
  · exact congrArg Store.Rows.entries (hsettled hs)
  · obtain ⟨hgone, hthere⟩ := Ledger.regrouped_ne (m := m) he hleaves hlast hstays
    refine ⟨?_, ?_⟩
    · exact (hbatch.find? e.id).trans (by rw [hgone]; rfl)
    · rw [Store.find?, hsingly.find?, hthere]
      rfl

/-- An update of one item under two names: with the first it leaves the path 0, with the second it
comes back.  Another item is updated twice and stays, and makes no difference. -/
theorem applyUpdate_eq_singly_iff_of_return :
    let peer : PeerInfo := ⟨⟨"peer"⟩, "localhost:1"⟩
    let item (id payload : String) : Entry := ⟨⟨id⟩, ⟨[false]⟩, "type", peer, payload⟩
    let list (name : String) : BulkList := ⟨Path.root.child name, .first, .empty⟩
    let h : Holdings :=
      { store := ((Store.named "canonical").run [.add [item "a" "x"]]).2
        inbound := list "inbound.csv", outboundDelete := list "d"
        outboundInsert := list "i", outboundUpdate := list "u"
        scratch := Path.root.child "scratch", listeners := .empty, journal := [] }
    let path : Key := ⟨[false]⟩
    let keys : KeyScheme := .ofBits 8
    let returning := [item "a" "é", item "a" "y"]
    let staying := [item "a" "y", item "b" "é", item "a" "z", item "b" "é"]
    ((h.applyUpdate path keys returning).2.store.find? ⟨"a"⟩ = none ∧
      (h.applyUpdate path keys returning).2.store.get none ≠
        (h.applySingly path keys returning).store.get none) ∧
    (h.applyUpdate path keys staying).2.store.get none =
      (h.applySingly path keys staying).store.get none := by
  intro peer item list h path keys returning staying
  have hreturning := applyUpdate_eq_singly_iff h "canonical" [.add [item "a" "x"]] rfl path keys
    returning
  have hstaying := applyUpdate_eq_singly_iff h "canonical" [.add [item "a" "x"]] rfl path keys
    staying
  have hback : ¬ Settled path keys returning := by decide
  refine ⟨⟨?_, fun hsame => hback (hreturning.1.mp hsame)⟩, hstaying.1.mpr (by decide)⟩
  exact (hreturning.2.2 (item "a" "é") (by decide) (by decide) (item "a" "y") (by decide)
    (by decide)).1

end Holdings

end TrieOverlay
