import TrieOverlay.Proofs.Store.Maps

/-!
# The three maps of a store agree

Putting and deleting change the rows, the keys of the identifiers and the records of the peers one
after the other, and a put may give up the record of a peer and make it again.  How the maps belong
together is `Store.Rows.Consistent`:

* a place has a row exactly if its key is the one that is known for its identifier;
* the peer of every row has a record, under its own identifier;
* a record counts the rows that name its peer, and there is one at least.

Consistent maps are those of a ledger and nothing else (`consistent_iff`), so what is known of a
ledger beside a deletion or a put says that either keeps the maps consistent, wherever it starts.

Nothing is missed then.  Deleting finds the row that it looks for and a record with a row to take
away (`Consistent.delete_eq`), and an entry that is seen in a store shows its peer as recorded
(`Consistent.exists_record_of_seen`).  `Store.Rows.maps_agree` says all this of every state that
puts and deletions lead to.
-/

namespace TrieOverlay

namespace Store.Rows

variable {s : Store.Rows} {m : Ledger} {e : Entry} {id : EntryId} {key : Key} {place : RowPlace}
  {row : Row} {p : PeerId} {record : PeerUse}

/-- The number of rows that name a peer. -/
def naming (s : Store.Rows) (p : PeerId) : Nat :=
  s.rows.toList.countP fun (_, row) => row.peer == p

/-- The three maps belong together. -/
structure Consistent (s : Store.Rows) : Prop where
  /-- A place has a row exactly if its key is the one that is known for its identifier. -/
  row_iff : ∀ place : RowPlace, place ∈ s.rows ↔ s.keyOf[place.id]? = some place.key
  /-- The peer of every row has a record. -/
  recorded : ∀ (place : RowPlace) (row : Row), s.rows[place]? = some row → row.peer ∈ s.peers
  /-- A record counts the rows that name its peer, and there is one. -/
  counted : ∀ (p : PeerId) (record : PeerUse), s.peers[p]? = some record →
    record.rows = s.naming p ∧ 1 ≤ record.rows
  /-- A record is under the identifier of its peer. -/
  named : ∀ (p : PeerId) (record : PeerUse), s.peers[p]? = some record → record.info.id = p

/-! ### Rows and their records -/

theorem Consistent.exists_row (h : s.Consistent) (hkey : s.keyOf[id]? = some key) :
    ∃ row, s.rows[RowPlace.mk key id]? = some row := by
  have hrow := (h.row_iff ⟨key, id⟩).2 hkey
  rwa [Std.ExtTreeMap.mem_iff_isSome_getElem?, Option.isSome_iff_exists] at hrow

theorem Consistent.exists_record (h : s.Consistent) (hrow : s.rows[place]? = some row) :
    ∃ record, s.peers[row.peer]? = some record := by
  have hrecord := h.recorded place row hrow
  rwa [Std.ExtTreeMap.mem_iff_isSome_getElem?, Option.isSome_iff_exists] at hrecord

theorem uncount_eq (h : 1 ≤ record.rows) : uncount record =
    if record.rows = 1 then none else some { record with rows := record.rows - 1 } := by
  have hlast : record.rows - 1 = 0 ↔ record.rows = 1 := by omega
  simp only [uncount, hlast]

/-- **Deleting finds what it looks for**: the row in the place of the identifier and the record of
its peer, which counts this row.  The record goes with its last row. -/
theorem Consistent.delete_eq (h : s.Consistent) (hkey : s.keyOf[id]? = some key) :
    ∃ row record, s.rows[RowPlace.mk key id]? = some row ∧ s.peers[row.peer]? = some record ∧
      1 ≤ record.rows ∧
      s.delete id = (true, ⟨s.rows.erase ⟨key, id⟩, s.keyOf.erase id,
        if record.rows = 1 then s.peers.erase row.peer
        else s.peers.insert row.peer { record with rows := record.rows - 1 }⟩) := by
  obtain ⟨row, hrow⟩ := h.exists_row hkey
  obtain ⟨record, hrecord⟩ := h.exists_record hrow
  have hcount := (h.counted row.peer record hrecord).2
  refine ⟨row, record, hrow, hrecord, hcount, ?_⟩
  simp only [Rows.delete, hkey, hrow]
  congr 2
  refine Std.ExtTreeMap.ext_getElem? fun p => ?_
  rw [Std.ExtTreeMap.getElem?_alter, hrecord, Option.bind_some, uncount_eq hcount]
  by_cases hlast : record.rows = 1
  · rw [if_pos hlast, if_pos hlast, Std.ExtTreeMap.getElem?_erase]
  · rw [if_neg hlast, if_neg hlast, Std.ExtTreeMap.getElem?_insert]

/-- The first deletion leaves a row to the record, the second none. -/
example :
    let peer : PeerInfo := ⟨⟨"peer"⟩, "localhost:1"⟩
    let a : Entry := ⟨⟨"a"⟩, ⟨[true]⟩, "type", peer, "item"⟩
    let b : Entry := ⟨⟨"b"⟩, ⟨[true]⟩, "type", peer, "item"⟩
    let s := (empty.upsert a).upsert b
    (s.delete a.id).2.peers[peer.id]? = some ⟨peer, 1⟩ ∧
      ((s.delete a.id).2.delete b.id).2.peers[peer.id]? = none := by
  cbv

/-- A row shows its peer as recorded. -/
theorem Consistent.entryOf_eq (h : s.Consistent) (hrow : s.rows[place]? = some row) :
    ∃ record, s.peers[row.peer]? = some record ∧
      s.entryOf place row = ⟨place.id, place.key, row.typeName, record.info, row.payload⟩ := by
  obtain ⟨record, hrecord⟩ := h.exists_record hrow
  refine ⟨record, hrecord, ?_⟩
  rw [entryOf, hrecord]

/-! ### Looking -/

/-- The ways to see an entry in a store. -/
inductive Seen (s : Store.Rows) (e : Entry) : Prop where
  /-- By its identifier. -/
  | find (id : EntryId) (h : s.find? id = some e)
  /-- Among all entries. -/
  | all (h : e ∈ s.entries)
  /-- Among the entries below a key. -/
  | below (key : Key) (h : e ∈ s.entriesBelow key)
  /-- Among the entries that a peer is not responsible for. -/
  | foreign (path : Key) (h : e ∈ s.foreignTo path)

theorem find?_eq_some_iff : s.find? id = some e ↔ ∃ key row, s.keyOf[id]? = some key ∧
    s.rows[RowPlace.mk key id]? = some row ∧ s.entryOf ⟨key, id⟩ row = e := by
  simp [find?, Option.bind_eq_some_iff]

theorem exists_row_of_mem_map {rows : List (RowPlace × Row)} (hrows : rows ⊆ s.rows.toList)
    (he : e ∈ rows.map fun (place, row) => s.entryOf place row) :
    ∃ place row, s.rows[place]? = some row ∧ s.entryOf place row = e := by
  obtain ⟨⟨place, row⟩, hmem, rfl⟩ := List.mem_map.1 he
  exact ⟨place, row, Std.ExtTreeMap.mem_toList_iff_getElem?_eq_some.1 (hrows hmem), rfl⟩

/-- What is seen is a row. -/
theorem Seen.exists_row (h : s.Seen e) :
    ∃ place row, s.rows[place]? = some row ∧ s.entryOf place row = e := by
  cases h with
  | find id h =>
    obtain ⟨key, row, -, hrow, he⟩ := find?_eq_some_iff.1 h
    exact ⟨⟨key, id⟩, row, hrow, he⟩
  | all h => exact exists_row_of_mem_map (List.Subset.refl _) h
  | below key h =>
    have hbelow : (s.rowsBelow key).Sublist s.rows.toList :=
      (List.takeWhile_sublist _).trans (List.dropWhile_sublist _)
    exact exists_row_of_mem_map hbelow.subset h
  | foreign path h => exact exists_row_of_mem_map (List.filter_sublist).subset h

/-- An entry that is seen shows its peer as recorded. -/
theorem Consistent.exists_record_of_seen (h : s.Consistent) (he : s.Seen e) :
    ∃ record, s.peers[e.peer.id]? = some record ∧ e.peer = record.info := by
  obtain ⟨place, row, hrow, rfl⟩ := he.exists_row
  obtain ⟨record, hrecord, heq⟩ := h.entryOf_eq hrow
  refine ⟨record, ?_, by rw [heq]⟩
  rw [heq]
  exact (h.named row.peer record hrecord).symm ▸ hrecord

/-! ### Consistent maps are those of a ledger -/

/-- The rows of a ledger that name a peer are as many as the entries of the peer. -/
theorem naming_eq_card (hrows : ∀ place : RowPlace, s.rows[place]? = (m.entries[place.id]?).bind
      fun e => if e.key = place.key then some ⟨e.typeName, e.peer.id, e.payload⟩ else none)
    (p : PeerId) : s.naming p = (m.ownedBy p).card := by
  have hmem : ∀ x : RowPlace × Row, x ∈ s.rows.toList ↔ ∃ e, m.entries[x.1.id]? = some e ∧
      x = (⟨e.key, x.1.id⟩, ⟨e.typeName, e.peer.id, e.payload⟩) := by
    rintro ⟨⟨key, id⟩, row⟩
    rw [Std.ExtTreeMap.mem_toList_iff_getElem?_eq_some, hrows, bind_row_eq_some_iff]
    simp [eq_comm]
  let named := s.rows.toList.filter fun (_, row) => row.peer == p
  have hnodup : (named.map (·.1.id)).Nodup := by
    -- an identifier has one row, the one of its entry
    refine List.Nodup.map_on (fun x hx y hy hid => ?_) (List.Nodup.filter _ ?_)
    · obtain ⟨e, he, hxe⟩ := (hmem x).1 (List.mem_of_mem_filter hx)
      obtain ⟨e', he', hye⟩ := (hmem y).1 (List.mem_of_mem_filter hy)
      rw [hid, he', Option.some.injEq] at he
      rw [hxe, hye, hid, he]
    · refine List.Nodup.of_map (·.1) ?_
      rw [Std.ExtTreeMap.map_fst_toList_eq_keys]
      exact Std.ExtTreeMap.nodup_keys
  have hids : (named.map (·.1.id)).toFinset = m.ownedBy p := by
    ext id
    simp only [named, List.mem_toFinset, List.mem_map, List.mem_filter, hmem, beq_iff_eq,
      Ledger.mem_ownedBy]
    constructor
    · rintro ⟨x, ⟨⟨e, he, hx⟩, hp⟩, rfl⟩
      rw [hx] at hp
      exact ⟨e, he, hp⟩
    · rintro ⟨e, he, rfl⟩
      exact ⟨(⟨e.key, id⟩, ⟨e.typeName, e.peer.id, e.payload⟩), ⟨⟨e, he, rfl⟩, rfl⟩, rfl⟩
  rw [← hids, List.toFinset_card_of_nodup hnodup, List.length_map]
  exact List.countP_eq_length_filter

theorem Keeps.eq_of_record (h : s.Keeps m) (hrecord : s.peers[p]? = some record) :
    (m.ownedBy p).Nonempty ∧
      record = ⟨⟨p, (m.addresses[p]?).getD ""⟩, (m.ownedBy p).card⟩ := by
  rw [h.peers] at hrecord
  split at hrecord
  · cases hrecord
  · exact ⟨Finset.nonempty_iff_ne_empty.2 ‹_›, (Option.some.inj hrecord).symm⟩

theorem Keeps.consistent (h : s.Keeps m) : s.Consistent where
  row_iff place := by
    rw [Std.ExtTreeMap.mem_iff_isSome_getElem?, h.rows, h.keyOf]
    cases m.entries[place.id]? with
    | none => simp
    | some e => by_cases hkey : e.key = place.key <;> simp [hkey]
  recorded place row hrow := by
    rw [h.rows, bind_row_eq_some_iff] at hrow
    obtain ⟨e, he, -, rfl⟩ := hrow
    have hmem : place.id ∈ m.ownedBy e.peer.id := Ledger.mem_ownedBy.2 ⟨e, he, rfl⟩
    rw [Std.ExtTreeMap.mem_iff_isSome_getElem?, h.peers, if_neg (Finset.ne_empty_of_mem hmem)]
    rfl
  counted p record hrecord := by
    obtain ⟨hsome, rfl⟩ := h.eq_of_record hrecord
    exact ⟨(naming_eq_card h.rows p).symm, Finset.card_pos.2 hsome⟩
  named p record hrecord := by
    obtain ⟨-, rfl⟩ := h.eq_of_record hrecord
    rfl

/-- The entries as a ledger, with the addresses that the records have. -/
def ledger (s : Store.Rows) : Ledger where
  entries := s.keyOf.filterMap fun id _ => s.find? id
  addresses := s.peers.map fun _ record => record.info.address

theorem getElem?_ledger (s : Store.Rows) (id : EntryId) : s.ledger.entries[id]? = s.find? id := by
  rw [ledger, Std.ExtTreeMap.getElem?_filterMap', find?]
  cases s.keyOf[id]? <;> rfl

theorem addresses_ledger (s : Store.Rows) (p : PeerId) :
    s.ledger.addresses[p]? = (s.peers[p]?).map (·.info.address) :=
  Std.ExtTreeMap.getElem?_map

theorem Consistent.exists_record_of_ledger (h : s.Consistent)
    (he : s.ledger.entries[id]? = some e) : ∃ record, s.peers[e.peer.id]? = some record := by
  rw [getElem?_ledger] at he
  obtain ⟨record, hrecord, -⟩ := h.exists_record_of_seen (.find id he)
  exact ⟨record, hrecord⟩

/-- An identifier with a key has an entry under this key. -/
theorem Consistent.find?_eq (h : s.Consistent) (hkey : s.keyOf[id]? = some key) :
    ∃ e, s.find? id = some e ∧ e.key = key ∧
      s.rows[RowPlace.mk key id]? = some ⟨e.typeName, e.peer.id, e.payload⟩ := by
  obtain ⟨row, hrow⟩ := h.exists_row hkey
  obtain ⟨record, hrecord, heq⟩ := h.entryOf_eq hrow
  refine ⟨_, find?_eq_some_iff.2 ⟨key, row, hkey, hrow, rfl⟩, rfl, ?_⟩
  rw [heq, h.named row.peer record hrecord]
  exact hrow

theorem find?_eq_none (hkey : s.keyOf[id]? = none) : s.find? id = none := by
  rw [find?, hkey]
  rfl

theorem Consistent.keys_eq (h : s.Consistent) (id : EntryId) :
    s.keyOf[id]? = (s.find? id).map (·.key) := by
  cases hkey : s.keyOf[id]? with
  | none => rw [find?_eq_none hkey, Option.map_none]
  | some key =>
    obtain ⟨e, he, rfl, -⟩ := h.find?_eq hkey
    rw [he, Option.map_some]

theorem Consistent.rows_eq (h : s.Consistent) (place : RowPlace) :
    s.rows[place]? = (s.find? place.id).bind fun e =>
      if e.key = place.key then some ⟨e.typeName, e.peer.id, e.payload⟩ else none := by
  have hrow := h.row_iff place
  rw [Std.ExtTreeMap.mem_iff_isSome_getElem?] at hrow
  cases hkey : s.keyOf[place.id]? with
  | none => simpa [find?_eq_none hkey, hkey] using hrow
  | some key =>
    obtain ⟨e, he, rfl, hplace⟩ := h.find?_eq hkey
    rw [he, Option.bind_some]
    split
    · rename_i hsame
      rw [← hplace, hsame]
    · rename_i hother
      simpa [hkey, hother] using hrow

theorem Consistent.peers_eq (h : s.Consistent) (p : PeerId) :
    s.peers[p]? = if s.ledger.ownedBy p = ∅ then none
      else some ⟨⟨p, (s.ledger.addresses[p]?).getD ""⟩, (s.ledger.ownedBy p).card⟩ := by
  have hcard : s.naming p = (s.ledger.ownedBy p).card :=
    naming_eq_card (fun place => by rw [getElem?_ledger]; exact h.rows_eq place) p
  cases hp : s.peers[p]? with
  | none =>
    rw [if_pos]
    refine Finset.eq_empty_of_forall_notMem fun id hid => ?_
    obtain ⟨e, he, rfl⟩ := Ledger.mem_ownedBy.1 hid
    obtain ⟨record, hrecord⟩ := h.exists_record_of_ledger he
    rw [hp] at hrecord
    cases hrecord
  | some record =>
    obtain ⟨hrows, hpos⟩ := h.counted p record hp
    rw [hrows, hcard, Nat.one_le_iff_ne_zero, ne_eq, Finset.card_eq_zero] at hpos
    rw [if_neg hpos, addresses_ledger, hp, ← hcard, ← hrows, ← h.named p record hp]
    rfl

theorem Consistent.keeps (h : s.Consistent) : s.Keeps s.ledger where
  named id e he := by
    rw [getElem?_ledger, find?_eq_some_iff] at he
    obtain ⟨key, row, -, -, rfl⟩ := he
    rfl
  keyOf id := by
    rw [getElem?_ledger]
    exact h.keys_eq id
  rows place := by
    rw [getElem?_ledger]
    exact h.rows_eq place
  peers p := h.peers_eq p
  addressed id e he := by
    obtain ⟨record, hrecord⟩ := h.exists_record_of_ledger he
    rw [addresses_ledger, hrecord]
    rfl

/-- **Three maps are consistent exactly if they are those of a ledger.** -/
theorem consistent_iff : s.Consistent ↔ ∃ m, s.Keeps m :=
  ⟨fun h => ⟨s.ledger, h.keeps⟩, fun ⟨_, h⟩ => h.consistent⟩

/-! ### Runs -/

theorem consistent_empty : Consistent empty :=
  keeps_empty.consistent

theorem Consistent.delete (h : s.Consistent) (id : EntryId) : (s.delete id).2.Consistent :=
  (h.keeps.delete id).2.consistent

theorem Consistent.upsert (h : s.Consistent) (e : Entry) : (s.upsert e).Consistent :=
  (h.keeps.upsert e).consistent

/-- What changes the maps. -/
inductive Change where
  /-- An entry is put in the place of the one with its identifier. -/
  | upsert (e : Entry)
  /-- The entry with an identifier is deleted. -/
  | delete (id : EntryId)

/-- The maps after a change. -/
def change (s : Store.Rows) : Change → Store.Rows
  | .upsert e => s.upsert e
  | .delete id => (s.delete id).2

/-- The maps after several changes. -/
def changed (s : Store.Rows) (changes : List Change) : Store.Rows :=
  changes.foldl change s

theorem Consistent.change (h : s.Consistent) (c : Change) : (s.change c).Consistent := by
  cases c with
  | upsert e => exact h.upsert e
  | delete id => exact h.delete id

theorem Consistent.changed (h : s.Consistent) (changes : List Change) :
    (s.changed changes).Consistent := by
  induction changes generalizing s with
  | nil => exact h
  | cons c changes ih => exact ih (h.change c)

/-- **The three maps of a store stay consistent**, whatever is put and deleted.  A deletion, the one
that a put begins with included, finds the row of every identifier that has a key, and the record of
its peer with a row to take away; and an entry that is seen shows its peer as recorded. -/
theorem maps_agree (changes : List Change) :
    let s := empty.changed changes
    s.Consistent ∧
    (∀ id key, s.keyOf[id]? = some key →
      ∃ row record, s.rows[RowPlace.mk key id]? = some row ∧ s.peers[row.peer]? = some record ∧
        1 ≤ record.rows ∧
        s.delete id = (true, ⟨s.rows.erase ⟨key, id⟩, s.keyOf.erase id,
          if record.rows = 1 then s.peers.erase row.peer
          else s.peers.insert row.peer { record with rows := record.rows - 1 }⟩)) ∧
    ∀ e, s.Seen e → ∃ record, s.peers[e.peer.id]? = some record ∧ e.peer = record.info := by
  intro s
  have hs : s.Consistent := consistent_empty.changed changes
  exact ⟨hs, fun _ _ hkey => hs.delete_eq hkey, fun _ he => hs.exists_record_of_seen he⟩

end Store.Rows

/-- Whatever is asked of a store, its maps are consistent. -/
theorem Store.consistent_state (name : String) (ops : List Store.Op) :
    ((named name).run ops).2.state.Consistent :=
  ((follows_named name).run ops).2.rows.consistent

end TrieOverlay
