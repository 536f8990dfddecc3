import TrieOverlay.Node.Changes
import TrieOverlay.Proofs.Store.Deletions

/-!
# What an update does

An update that the application asks for (`Node.update`) has three keys of an entry to deal with: the
one that it is stored with, the one that it comes with and the one of its payload.

* The request to update travels under the *routed key* (`Node.routedKey`): that of the stored entry
  if there is one.
* What is applied here (`Node.updatedHere`) is what is stored or has a routed key that the path
  owns.
* The key of the payload alone says what becomes of it: the entry is stored under that key, or it is
  gone here and to be inserted elsewhere.

The store is looked at through the ledger that it keeps.  The keys that entries come with make no
difference there (`Holdings.staying_map_withKey`, `Ledger.regrouped_map_withKey`), so the routed
keys show up in the request only.
-/

namespace TrieOverlay

variable {path : Key} {keys : KeyScheme} {es : List Entry} {e : Entry} {id : EntryId}
  {m : Ledger}

/-! ### Addresses -/

namespace Entry

/-- The address of a peer in the last of some entries that name it. -/
def lastAddress? (es : List Entry) (p : PeerId) : Option String :=
  (es.reverse.find? (·.peer.id = p)).map (·.peer.address)

/-- An entry with the address that some other entries give its peer, if they name it. -/
def readdressed (e : Entry) (es : List Entry) : Entry :=
  { e with peer := ⟨e.peer.id, (lastAddress? es e.peer.id).getD e.peer.address⟩ }

theorem lastAddress?_append_singleton (es : List Entry) (e : Entry) (p : PeerId) :
    lastAddress? (es ++ [e]) p = if e.peer.id = p then some e.peer.address
      else lastAddress? es p := by
  rw [lastAddress?, List.reverse_append, List.reverse_singleton, List.singleton_append,
    List.find?_cons]
  by_cases hp : e.peer.id = p <;> simp [hp, lastAddress?]

/-- The address that an entry comes with does not matter if its peer is named. -/
theorem readdressed_congr {e e' : Entry} (hsame : e.withoutAddress = e'.withoutAddress)
    (hnamed : ∃ a ∈ es, a.peer.id = e.peer.id) : e.readdressed es = e'.readdressed es := by
  obtain ⟨id, key, type, ⟨p, address⟩, payload⟩ := e
  obtain ⟨id', key', type', ⟨p', address'⟩, payload'⟩ := e'
  simp only [withoutAddress, mk.injEq, PeerInfo.mk.injEq] at hsame
  obtain ⟨rfl, rfl, rfl, ⟨rfl, -⟩, rfl⟩ := hsame
  have hfound : (lastAddress? es p).isSome := by
    rw [lastAddress?, Option.isSome_map, List.find?_isSome]
    simpa using hnamed
  obtain ⟨address'', haddress⟩ := Option.isSome_iff_exists.1 hfound
  simp [readdressed, haddress]

end Entry

namespace Ledger

theorem addresses_foldl_put (m : Ledger) (es : List Entry) (p : PeerId) :
    (es.foldl put m).addresses[p]? = (Entry.lastAddress? es p).or m.addresses[p]? := by
  induction es using List.reverseRecOn with
  | nil => rfl
  | append_singleton es e ih =>
    rw [List.foldl_append, List.foldl_cons, List.foldl_nil, addresses_put, ih,
      Entry.lastAddress?_append_singleton]
    split <;> rfl

/-- Entries that are put change the addresses of their peers in all that is shown. -/
theorem shown_foldl_put (m : Ledger) (es : List Entry) (e : Entry) :
    (es.foldl put m).shown e = (m.shown e).readdressed es := by
  rw [shown, addresses_foldl_put, shown, Entry.readdressed]
  cases Entry.lastAddress? es e.peer.id <;> rfl

end Ledger

/-! ### Updated entries in the store -/

namespace Holdings

/-- The updated entries that stay at a path, under the keys of their payloads. -/
def staying (path : Key) (keys : KeyScheme) (es : List Entry) : List Entry :=
  (es.filter fun e => !leaves path keys e).map (rekey keys)

/-- The updated entries that leave a path, under the keys of their payloads. -/
def moving (path : Key) (keys : KeyScheme) (es : List Entry) : List Entry :=
  (es.filter (leaves path keys)).map (rekey keys)

/-- The key that an updated entry comes with does not matter. -/
theorem staying_map_withKey (k : Entry → Key) (es : List Entry) :
    staying path keys (es.map fun e => e.withKey (k e)) = staying path keys es := by
  rw [staying, List.filter_map, List.map_map]
  rfl

theorem moving_map_withKey (k : Entry → Key) (es : List Entry) :
    moving path keys (es.map fun e => e.withKey (k e)) = moving path keys es := by
  rw [moving, List.filter_map, List.map_map]
  rfl

/-- If the identifiers are different, each of them leaves for good. -/
theorem settled_of_nodup (hids : (es.map (·.id)).Nodup) : Settled path keys es := by
  intro e he hleaves last hlast
  rw [BulkList.lastWithId?_of_nodup hids he] at hlast
  rwa [← Option.some.inj hlast]

end Holdings

open Holdings

namespace Ledger

theorem regrouped_eq_staying (m : Ledger) (es : List Entry) : m.regrouped path keys es =
    (es.filter (leaves path keys)).foldl (fun m e => m.erase e.id)
      ((staying path keys es).foldl put m) := rfl

theorem regrouped_map_withKey (m : Ledger) (k : Entry → Key) (es : List Entry) :
    m.regrouped path keys (es.map fun e => e.withKey (k e)) = m.regrouped path keys es := by
  rw [regrouped_eq_staying, staying_map_withKey, List.filter_map, List.foldl_map]
  rfl

/-- If the identifiers are different, every entry decides about its own. -/
theorem getElem?_regrouped_of_mem (m : Ledger) (hids : (es.map (·.id)).Nodup) (he : e ∈ es) :
    (m.regrouped path keys es).entries[e.id]? =
      if leaves path keys e then none else some (rekey keys e) := by
  rw [regrouped_eq (settled_of_nodup hids), getElem?_foldl_revise,
    BulkList.lastWithId?_of_nodup hids he]

theorem getElem?_regrouped_of_notMem (m : Ledger) (hid : id ∉ es.map (·.id)) :
    (m.regrouped path keys es).entries[id]? = m.entries[id]? := by
  have hlast : BulkList.lastWithId? es id = none := by
    rw [← Option.not_isSome_iff_eq_none, BulkList.isSome_lastWithId?]
    simpa using hid
  rw [getElem?_regrouped, getElem?_foldl_revise, hlast, if_neg]
  rintro ⟨e, he, rfl, -⟩
  exact hid (List.mem_map_of_mem he)

theorem shown_regrouped (m : Ledger) (es : List Entry) (e : Entry) :
    (m.regrouped path keys es).shown e = (m.shown e).readdressed (staying path keys es) := by
  rw [regrouped_eq_staying, shown_foldl_erase, shown_foldl_put]

end Ledger

namespace Store.Rows

variable {s : Store.Rows}

/-- What a store lists is what it finds. -/
theorem Keeps.mem_entries_iff_find? (hs : s.Keeps m) :
    e ∈ s.entries ↔ s.find? e.id = some e := by
  rw [hs.mem_entries, hs.find?, List.mem_map, Option.map_eq_some_iff]
  constructor
  · rintro ⟨a, ha, rfl⟩
    exact ⟨a, hs.named.mem_list.1 ha, rfl⟩
  · rintro ⟨a, ha, hshown⟩
    have hid := hs.named _ _ ha
    exact ⟨a, hs.named.mem_list.2 (hid ▸ ha), hshown⟩

theorem Keeps.contains_eq (hs : s.Keeps m) (id : EntryId) :
    s.keyOf.contains id = (s.find? id).isSome := by
  rw [Std.ExtTreeMap.contains_eq_isSome_getElem?, hs.keyOf, hs.find?, Option.isSome_map,
    Option.isSome_map]

/-- What becomes of an updated entry in a store that keeps a ledger. -/
theorem Keeps.find?_regrouped (hs : s.Keeps (m.regrouped path keys es))
    (hids : (es.map (·.id)).Nodup) (he : e ∈ es) :
    s.find? e.id = if path.owns (rekey keys e).key then
      some ((rekey keys e).readdressed (staying path keys es)) else none := by
  rw [hs.find?, Ledger.getElem?_regrouped_of_mem m hids he]
  cases hstays : path.owns (rekey keys e).key with
  | false => simp [leaves, hstays]
  | true =>
    have hnot : leaves path keys e = false := by
      rw [leaves, hstays]
      rfl
    have hmem : rekey keys e ∈ staying path keys es :=
      List.mem_map_of_mem (List.mem_filter.2 ⟨he, by rw [hnot]; rfl⟩)
    simp only [hnot, Bool.false_eq_true, if_false, if_true, Option.map_some]
    rw [Ledger.shown_regrouped]
    exact congrArg some (Entry.readdressed_congr rfl ⟨_, hmem, rfl⟩)

/-- The other entries of the store at most get new addresses. -/
theorem Keeps.find?_regrouped_of_notMem {s' : Store.Rows} (hs : s.Keeps m)
    (hs' : s'.Keeps (m.regrouped path keys es)) (hid : id ∉ es.map (·.id)) :
    s'.find? id = (s.find? id).map (·.readdressed (staying path keys es)) := by
  rw [hs'.find?, Ledger.getElem?_regrouped_of_notMem m hid, hs.find?, Option.map_map]
  exact congrArg (Option.map · _) (funext fun a => Ledger.shown_regrouped m es a)

end Store.Rows

namespace Node

variable {n : Node}

/-! ### The update -/

/-- The key that an updated entry travels under: that of the stored entry, if there is one. -/
def routedKey (n : Node) (e : Entry) : Key :=
  ((n.find? e.id).map (·.key)).getD e.key

/-- An entry under the key that it travels under. -/
def routed (n : Node) (e : Entry) : Entry :=
  e.withKey (n.routedKey e)

/-- The updated entries that are applied here: those that are stored, or have a routed key that the
path of the peer owns. -/
def updatedHere (n : Node) (es : List Entry) : List Entry :=
  es.filter fun e => (n.find? e.id).isSome || n.peer.path.owns (n.routedKey e)

/-- The requests that an update submits: one to update all the entries under their routed keys, and
one to insert those that leave, if any do. -/
def updateRequests (n : Node) (es : List Entry) : List Request :=
  let moved := moving n.peer.path n.keys (n.updatedHere es)
  ⟨.ofSerial n.serial, .update, .entries (es.map n.routed), .here⟩ ::
    if moved = [] then [] else [⟨.ofSerial (n.serial + 1), .insert, .entries moved, .here⟩]

theorem underStoredKey_eq_routed (n : Node) : n.underStoredKey = n.routed := by
  funext e
  unfold underStoredKey routed routedKey
  cases n.find? e.id <;> rfl

/-- What `update` picks to apply. -/
theorem filter_routed (hs : n.holdings.store.state.Keeps m) (es : List Entry) :
    ((es.map n.routed).filter fun e =>
      n.peer.path.owns e.key || n.holdings.store.contains e.id) =
        (n.updatedHere es).map n.routed := by
  rw [List.filter_map, updatedHere]
  congr 1
  refine List.filter_congr fun e _ => ?_
  have hstored : n.holdings.store.contains e.id = (n.find? e.id).isSome := hs.contains_eq e.id
  rw [← hstored]
  exact Bool.or_comm _ _

/-- An update changes what the peer holds and submits its requests, and nothing else. -/
theorem update_eq (hs : n.holdings.store.state.Keeps m) (hne : es ≠ []) :
    n.update es =
      { n with
        holdings := (n.holdings.applyUpdate n.peer.path n.keys ((n.updatedHere es).map n.routed)).2
        queues := { n.queues with localEntries := n.queues.localEntries ++ n.updateRequests es }
        serial := n.serial + (n.updateRequests es).length } := by
  have hmoved : (n.holdings.applyUpdate n.peer.path n.keys ((n.updatedHere es).map n.routed)).1 =
      moving n.peer.path n.keys (n.updatedHere es) := by
    rw [Holdings.applyUpdate_eq]
    exact moving_map_withKey n.routedKey (n.updatedHere es)
  unfold update updateRequests
  rw [List.isEmpty_eq_false_iff.2 hne, underStoredKey_eq_routed]
  dsimp only
  rw [filter_routed hs, ← hmoved]
  generalize n.holdings.applyUpdate n.peer.path n.keys ((n.updatedHere es).map n.routed) = result
  obtain ⟨moved, holdings⟩ := result
  cases moved with
  | nil => rfl
  | cons e moved =>
    dsimp only
    rw [if_neg (List.cons_ne_nil e moved), List.append_cons]
    rfl

/-- **An update deals with three keys of an entry.**  Whatever the store went through before, and
whatever path and keys the peer has, if the updated entries have different identifiers:

* An entry that is stored, or that the peer owns under its routed key, is stored with its content
  under the key of its payload if the peer owns that one, and is not stored otherwise.
* All that is stored under other identifiers stays as it is, up to the address that the entries
  which are put give to its peer.  Nothing else is listed.
* One request to update is submitted, with all the entries in order under their routed keys, and
  after it one request to insert, with those that left in order under the keys of their payloads,
  if any did.  Apart from these requests and what the peer holds the node is as it was. -/
theorem update_routes_and_moves (n : Node) (name : String) (past : List Store.Op)
    (hpast : n.holdings.store.state = ((Store.named name).run past).2.state) (items : List Entry)
    (hne : items ≠ []) (hids : (items.map (·.id)).Nodup) :
    let n' := n.update items
    let here := n.updatedHere items
    let put := staying n.peer.path n.keys here
    (∀ e ∈ here, n'.find? e.id =
      if n.peer.path.owns (rekey n.keys e).key then some ((rekey n.keys e).readdressed put)
      else none) ∧
    (∀ id ∉ here.map (·.id), n'.find? id = (n.find? id).map (·.readdressed put)) ∧
    (∀ e, e ∈ n'.holdings.store.get none ↔ n'.find? e.id = some e) ∧
    n' = { n with
      holdings := n'.holdings
      queues := { n.queues with localEntries := n.queues.localEntries ++ n.updateRequests items }
      serial := n.serial + (n.updateRequests items).length } := by
  intro n' here put
  have hs : n.holdings.store.state.Keeps (Ledger.empty.run past).2 :=
    hpast ▸ ((Store.follows_named name).run past).2.rows
  have hids' : (here.map (·.id)).Nodup := hids.sublist (List.filter_sublist.map _)
  have hupdate := update_eq hs hne
  have hholdings : n'.holdings =
      (n.holdings.applyUpdate n.peer.path n.keys (here.map n.routed)).2 :=
    congrArg holdings hupdate
  have hs' : n'.holdings.store.state.Keeps
      ((Ledger.empty.run past).2.regrouped n.peer.path n.keys here) := by
    rw [hholdings, ← Ledger.regrouped_map_withKey _ n.routedKey here]
    exact keeps_applyUpdate hs n.peer.path n.keys (here.map n.routed)
  refine ⟨fun e he => hs'.find?_regrouped hids' he, fun id hid => ?_, fun e => ?_, ?_⟩
  · exact hs.find?_regrouped_of_notMem hs' hid
  · exact hs'.mem_entries_iff_find?
  · rw [hholdings]
    exact hupdate

/-- Of four updated entries one stays, one leaves, one is of no concern here, and one comes and
leaves at once.  The first two come with other keys than they are stored with, and the new address
shows in an entry that is not updated. -/
theorem update_routes_and_moves_of_four :
    let item (id : String) (key : List Bool) (address payload : String) : Entry :=
      ⟨⟨id⟩, ⟨key⟩, "type", ⟨⟨"peer"⟩, address⟩, payload⟩
    let keys : KeyScheme := .ofBits 8
    let stored := [item "a" [false] "old:1" "x", item "b" [false] "old:1" "x",
      item "c" [false] "old:1" "z"]
    let list (name : String) : BulkList := ⟨Path.root.child name, .first, .empty⟩
    let holdings : Holdings :=
      { store := ((Store.named "canonical").run [.add stored]).2
        inbound := list "inbound.csv", outboundDelete := list "d"
        outboundInsert := list "i", outboundUpdate := list "u"
        scratch := Path.root.child "scratch", listeners := .empty, journal := [] }
    let n : Node :=
      { peer := ⟨⟨⟨"peer"⟩, "old:1"⟩, ⟨[false]⟩, true⟩, keys, holdings, queues := .empty
        entryFlights := .empty, fileFlights := .empty, volume := .empty, serial := 0
        isPaused := false, clock := 0, idlePoll := 0, lastRetry := none }
    let updated := [item "a" [true] "new:2" "y", item "b" [true] "new:2" "é",
      item "d" [true] "new:2" "x", item "e" [false] "new:2" "é"]
    let n' := n.update updated
    (n'.find? ⟨"a"⟩ = some (rekey keys (item "a" [] "new:2" "y")) ∧ n'.find? ⟨"b"⟩ = none ∧
      n'.find? ⟨"c"⟩ = some (item "c" [false] "new:2" "z") ∧ n'.find? ⟨"d"⟩ = none ∧
      n'.find? ⟨"e"⟩ = none) ∧
    n'.queues.localEntries =
      [⟨.ofSerial 0, .update, .entries [item "a" [false] "new:2" "y",
        item "b" [false] "new:2" "é", item "d" [true] "new:2" "x",
        item "e" [false] "new:2" "é"], .here⟩,
      ⟨.ofSerial 1, .insert, .entries [rekey keys (item "b" [] "new:2" "é"),
        rekey keys (item "e" [] "new:2" "é")], .here⟩] := by
  intro item keys stored list holdings n updated n'
  obtain ⟨hhere, hothers, -, hnode⟩ :=
    update_routes_and_moves n "canonical" [.add stored] rfl updated (by simp [updated]) (by decide)
  have hupdated : n.updatedHere updated = [item "a" [true] "new:2" "y", item "b" [true] "new:2" "é",
      item "e" [false] "new:2" "é"] := by decide
  rw [hupdated] at hhere hothers
  refine ⟨⟨?_, ?_, ?_, ?_, ?_⟩, ?_⟩
  · exact (hhere (item "a" [true] "new:2" "y") (by simp)).trans (by decide)
  · exact (hhere (item "b" [true] "new:2" "é") (by simp)).trans (by decide)
  · exact (hothers ⟨"c"⟩ (by decide)).trans (by decide)
  · exact (hothers ⟨"d"⟩ (by decide)).trans (by decide)
  · exact (hhere (item "e" [false] "new:2" "é") (by simp)).trans (by decide)
  · have hrequests : n'.queues.localEntries = n.updateRequests updated :=
      congrArg (·.queues.localEntries) hnode
    rw [hrequests, updateRequests, hupdated]
    decide

end Node

end TrieOverlay
