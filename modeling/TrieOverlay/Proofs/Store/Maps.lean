import TrieOverlay.Proofs.Signature
import TrieOverlay.Proofs.Store.Ledger
import TrieOverlay.Store

/-!
# A store is a plain map

The three maps of a store are those of the `Ledger` that is kept beside it (`Store.Rows.Keeps`):
every row and every key is the one of an entry of the ledger, and a peer has a record exactly while
an entry of the ledger names it.  So every look at the store is a look at the ledger
(`Store.Shows`), after whatever was asked of both of them (`Store.shows_ledger`).
-/

namespace TrieOverlay

/-! ### The three maps -/

namespace Store.Rows

variable {s : Store.Rows} {m : Ledger} {e : Entry} {id : EntryId}

/-- The three maps are those of a ledger. -/
structure Keeps (s : Store.Rows) (m : Ledger) : Prop where
  named : m.Named
  keyOf : ∀ id : EntryId, s.keyOf[id]? = (m.entries[id]?).map (·.key)
  rows : ∀ place : RowPlace, s.rows[place]? = (m.entries[place.id]?).bind fun e =>
    if e.key = place.key then some ⟨e.typeName, e.peer.id, e.payload⟩ else none
  peers : ∀ p : PeerId, s.peers[p]? = if m.ownedBy p = ∅ then none
    else some ⟨⟨p, (m.addresses[p]?).getD ""⟩, (m.ownedBy p).card⟩
  addressed : ∀ (id : EntryId) (e : Entry), m.entries[id]? = some e →
    (m.addresses[e.peer.id]?).isSome

/-- The row that an entry has in places of its key. -/
theorem bind_row_eq_some_iff {entry : Option Entry} {key : Key} {row : Row} :
    (entry.bind fun e => if e.key = key then some (Row.mk e.typeName e.peer.id e.payload)
      else none) = some row ↔
      ∃ e, entry = some e ∧ e.key = key ∧ ⟨e.typeName, e.peer.id, e.payload⟩ = row := by
  simp [Option.bind_eq_some_iff]

theorem keeps_empty : empty.Keeps .empty where
  named := Ledger.named_empty
  keyOf id := by simp [empty, Ledger.empty]
  rows place := by simp [empty, Ledger.empty]
  peers p := by
    have hnone : Ledger.empty.ownedBy p = ∅ := by simp [Ledger.empty, Ledger.ownedBy]
    rw [if_pos hnone]
    simp [empty]
  addressed id e h := by simp [Ledger.empty] at h

theorem Keeps.row (h : s.Keeps m) (he : m.entries[id]? = some e) :
    s.rows[RowPlace.mk e.key id]? = some ⟨e.typeName, e.peer.id, e.payload⟩ := by
  rw [h.rows, he, Option.bind_some, if_pos rfl]

/-- One entry less of a peer. -/
theorem Keeps.uncount (h : s.Keeps m) (he : m.entries[id]? = some e) :
    (s.peers[e.peer.id]?).bind Rows.uncount =
      if (m.erase id).ownedBy e.peer.id = ∅ then none
      else some ⟨⟨e.peer.id, (m.addresses[e.peer.id]?).getD ""⟩,
        ((m.erase id).ownedBy e.peer.id).card⟩ := by
  have hmem : id ∈ m.ownedBy e.peer.id := Ledger.mem_ownedBy.2 ⟨e, he, rfl⟩
  rw [h.peers, if_neg (Finset.ne_empty_of_mem hmem), Option.bind_some, Rows.uncount,
    Ledger.ownedBy_erase]
  simp only [← Finset.card_erase_of_mem hmem, Finset.card_eq_zero]

theorem Keeps.delete (h : s.Keeps m) (id : EntryId) :
    (s.delete id).1 = m.entries.contains id ∧ (s.delete id).2.Keeps (m.erase id) := by
  rw [Rows.delete, h.keyOf, Std.ExtTreeMap.contains_eq_isSome_getElem?]
  cases he : m.entries[id]? with
  | none =>
    refine ⟨rfl, ?_⟩
    rw [Ledger.erase_of_none he]
    exact h
  | some e =>
    simp only [Option.map_some, h.row he]
    refine ⟨rfl, h.named.erase id, fun id' => ?_, fun place => ?_, fun p => ?_,
      fun id' e' he' => ?_⟩
    · simp only [Std.ExtTreeMap.getElem?_erase, Std.LawfulEqCmp.compare_eq_iff_eq,
        Ledger.getElem?_erase, h.keyOf]
      split <;> rfl
    · simp only [Std.ExtTreeMap.getElem?_erase, Std.LawfulEqCmp.compare_eq_iff_eq,
        Ledger.getElem?_erase, h.rows]
      -- an identifier has one row, the one that is erased
      obtain ⟨key, id'⟩ := place
      by_cases hid : id = id'
      · subst hid
        by_cases hkey : e.key = key <;> simp [he, hkey]
      · simp [hid]
    · rw [Std.ExtTreeMap.getElem?_alter]
      simp only [Std.LawfulEqCmp.compare_eq_iff_eq]
      split
      · rename_i hp
        subst hp
        exact h.uncount he
      · rename_i hp
        have hnot : id ∉ m.ownedBy p := fun hc => by
          obtain ⟨e', he', hp'⟩ := Ledger.mem_ownedBy.1 hc
          rw [he, Option.some.injEq] at he'
          exact hp (he' ▸ hp')
        rw [Ledger.ownedBy_erase, Finset.erase_eq_of_notMem hnot]
        exact h.peers p
    · rw [Ledger.getElem?_erase] at he'
      split at he'
      · cases he'
      · exact h.addressed id' e' he'

/-- One entry more of a peer, which brings an address. -/
theorem Keeps.count (h : s.Keeps m) (hnew : m.entries[e.id]? = none) :
    Rows.count e.peer (s.peers[e.peer.id]?) =
      ⟨⟨e.peer.id, e.peer.address⟩, ((m.put e).ownedBy e.peer.id).card⟩ := by
  have hnot : e.id ∉ m.ownedBy e.peer.id := fun hc => by
    obtain ⟨e', he', -⟩ := Ledger.mem_ownedBy.1 hc
    rw [hnew] at he'
    cases he'
  rw [h.peers, Ledger.ownedBy_put hnew, if_pos rfl, Finset.card_insert_of_notMem hnot]
  split
  · rename_i hnone
    simp [Rows.count, hnone]
  · simp [Rows.count]

theorem Keeps.upsert (h : s.Keeps m) (e : Entry) : (s.upsert e).Keeps (m.put e) := by
  have hd := (h.delete e.id).2
  have hnew : (m.erase e.id).entries[e.id]? = none := by
    rw [Ledger.getElem?_erase, if_pos rfl]
  rw [← Ledger.put_erase]
  generalize m.erase e.id = m' at hd hnew
  rw [Rows.upsert]
  generalize (s.delete e.id).2 = s' at hd
  refine ⟨hd.named.put e, fun id => ?_, fun place => ?_, fun p => ?_, fun id e' he' => ?_⟩
  · simp only [Std.ExtTreeMap.getElem?_insert, Std.LawfulEqCmp.compare_eq_iff_eq,
      Ledger.getElem?_put, hd.keyOf]
    split <;> rfl
  · simp only [Std.ExtTreeMap.getElem?_insert, Std.LawfulEqCmp.compare_eq_iff_eq,
      Ledger.getElem?_put, hd.rows]
    obtain ⟨key, id⟩ := place
    by_cases hid : e.id = id
    · subst hid
      by_cases hkey : e.key = key <;> simp [hnew, hkey]
    · simp [hid]
  · rw [Std.ExtTreeMap.getElem?_alter, Ledger.addresses_put]
    simp only [Std.LawfulEqCmp.compare_eq_iff_eq]
    split
    · rename_i hp
      subst hp
      rw [hd.count hnew, Ledger.ownedBy_put hnew, if_pos rfl,
        if_neg (Finset.insert_ne_empty _ _)]
      rfl
    · rename_i hp
      rw [Ledger.ownedBy_put hnew, if_neg hp]
      exact hd.peers p
  · rw [Ledger.addresses_put]
    split
    · rfl
    · rw [Ledger.getElem?_put] at he'
      split at he'
      · rename_i hp _
        exact absurd (congrArg (·.peer.id) (Option.some.inj he')) hp
      · exact hd.addressed id e' he'

theorem Keeps.upserts (h : s.Keeps m) (es : List Entry) :
    (es.foldl Rows.upsert s).Keeps (es.foldl Ledger.put m) := by
  induction es generalizing s m with
  | nil => exact h
  | cons e es ih => exact ih (h.upsert e)

theorem Keeps.deletes (h : s.Keeps m) (es : List Entry) :
    (s.deleteAll (es.map (·.id))).1 = (m.among es).card ∧
      (s.deleteAll (es.map (·.id))).2.Keeps (es.foldl (fun m e => m.erase e.id) m) := by
  induction es generalizing s m with
  | nil => exact ⟨rfl, h⟩
  | cons e es ih =>
    obtain ⟨hfound, hd⟩ := h.delete e.id
    obtain ⟨hcount, hrest⟩ := ih hd
    refine ⟨?_, hrest⟩
    rw [Ledger.card_among_cons, ← hcount, ← hfound]
    rfl

/-! ### Looking -/

theorem Keeps.entryOf (h : s.Keeps m) (he : m.entries[id]? = some e) :
    s.entryOf ⟨e.key, id⟩ ⟨e.typeName, e.peer.id, e.payload⟩ = m.shown e := by
  have hmem : id ∈ m.ownedBy e.peer.id := Ledger.mem_ownedBy.2 ⟨e, he, rfl⟩
  obtain ⟨address, haddress⟩ := Option.isSome_iff_exists.1 (h.addressed id e he)
  rw [Rows.entryOf, Ledger.shown, haddress, h.peers, if_neg (Finset.ne_empty_of_mem hmem),
    haddress, ← h.named id e he]
  rfl

theorem Keeps.find? (h : s.Keeps m) (id : EntryId) :
    s.find? id = (m.entries[id]?).map m.shown := by
  rw [Rows.find?, h.keyOf]
  cases he : m.entries[id]? with
  | none => rfl
  | some e =>
    simp only [Option.map_some, Option.bind_eq_bind, Option.bind_some, h.row he]
    exact congrArg some (h.entryOf he)

theorem Keeps.mem_entries (h : s.Keeps m) : e ∈ s.entries ↔ e ∈ m.list.map m.shown := by
  rw [Rows.entries, List.mem_map, List.mem_map]
  constructor
  · rintro ⟨⟨⟨key, id⟩, row⟩, hrow, rfl⟩
    rw [Std.ExtTreeMap.mem_toList_iff_getElem?_eq_some, h.rows, bind_row_eq_some_iff] at hrow
    obtain ⟨e, he, rfl, rfl⟩ := hrow
    exact ⟨e, h.named.mem_list.2 (by rwa [h.named id e he]), (h.entryOf he).symm⟩
  · rintro ⟨e, he, rfl⟩
    rw [h.named.mem_list] at he
    exact ⟨⟨⟨e.key, e.id⟩, _⟩, Std.ExtTreeMap.mem_toList_iff_getElem?_eq_some.2 (h.row he),
      h.entryOf he⟩

end Store.Rows

/-- Whether an entry stands before another: by its key, and under one key by its identifier. -/
def Entry.Before (a b : Entry) : Prop :=
  compare a.key b.key = .lt ∨ a.key = b.key ∧ compare a.id b.id = .lt

theorem Entry.Before.ne {a b : Entry} (h : a.Before b) : a ≠ b := by
  rintro rfl
  rcases h with h | ⟨-, h⟩ <;> simp at h

namespace Store.Rows

variable {s : Store.Rows} {m : Ledger}

/-- The entries stand in order of key and identifier, whatever they are. -/
theorem pairwise_entries (s : Store.Rows) : s.entries.Pairwise Entry.Before := by
  rw [entries, List.pairwise_map]
  refine Std.ExtTreeMap.ordered_keys_toList.imp fun {a b} hlt => ?_
  have hlex : (compare a.1.key b.1.key).then (compare a.1.id b.1.id) = .lt := hlt
  rw [Ordering.then_eq_lt, Std.LawfulEqCmp.compare_eq_iff_eq] at hlex
  exact hlex

theorem Keeps.entries_perm (h : s.Keeps m) : s.entries.Perm (m.list.map m.shown) := by
  have hleft : s.entries.Nodup := s.pairwise_entries.imp Entry.Before.ne
  have hright : (m.list.map m.shown).Nodup := by
    refine List.Nodup.of_map (·.id) ?_
    rw [List.map_map, show (fun e : Entry => e.id) ∘ m.shown = (·.id) from rfl,
      h.named.map_id_list]
    exact Std.ExtTreeMap.nodup_keys
  exact (List.perm_ext_iff_of_nodup hleft hright).2 fun _ => h.mem_entries

theorem Keeps.size_rows (h : s.Keeps m) : s.rows.size = m.entries.size := by
  have hlength := h.entries_perm.length_eq
  rwa [entries, List.length_map, Std.ExtTreeMap.length_toList, List.length_map,
    Ledger.length_list] at hlength

theorem Keeps.size_peers (h : s.Keeps m) :
    s.peers.size = (m.list.map (·.peer.id)).toFinset.card := by
  rw [← Std.ExtTreeMap.length_keys, ← List.toFinset_card_of_nodup Std.ExtTreeMap.nodup_keys]
  congr 1
  ext p
  rw [List.mem_toFinset, Std.ExtTreeMap.mem_keys, Std.ExtTreeMap.mem_iff_isSome_getElem?, h.peers]
  have howned := h.named.ownedBy_eq_empty_iff (p := p)
  split
  · simpa using howned.1 ‹_›
  · simpa using not_imp_not.2 howned.2 ‹_›

end Store.Rows

/-! ### Runs -/

namespace Store

/-- What is asked of a store. -/
inductive Op where
  /-- Put entries. -/
  | add (entries : List Entry)
  /-- Put entries that may be there already. -/
  | update (entries : List Entry)
  /-- Remove the entries with the identifiers of the given ones. -/
  | remove (entries : List Entry)
  /-- Tell the number of entries. -/
  | count

/-- The answer of a store, and the store afterwards. -/
def perform (s : Store) : Op → Nat × Store
  | .add es => s.add es
  | .update es => s.update es
  | .remove es => s.remove es
  | .count => s.count

/-- The answers of a store, and the store afterwards. -/
def run (s : Store) : List Op → List Nat × Store
  | [] => ([], s)
  | op :: ops =>
    let (n, s) := s.perform op
    let (ns, s) := s.run ops
    (n :: ns, s)

end Store

namespace Ledger

/-- The answer of a ledger, and the ledger afterwards. -/
def perform (m : Ledger) : Store.Op → Nat × Ledger
  | .add es | .update es => (es.length, es.foldl put m)
  | .remove es => ((m.among es).card, es.foldl (fun m e => m.erase e.id) m)
  | .count => (m.entries.size, m)

/-- The answers of a ledger, and the ledger afterwards. -/
def run (m : Ledger) : List Store.Op → List Nat × Ledger
  | [] => ([], m)
  | op :: ops =>
    let (n, m) := m.perform op
    let (ns, m) := m.run ops
    (n :: ns, m)

end Ledger

namespace Store

variable {s : Store} {m : Ledger}

/-- A store that has gone through the same as a ledger. -/
structure Follows (s : Store) (m : Ledger) : Prop where
  rows : s.state.Keeps m
  counted : s.counted.Follows s.signature m.entries.size

theorem follows_named (name : String) : (named name).Follows .empty :=
  ⟨Rows.keeps_empty, Memo.follows_empty _ _⟩

theorem Follows.mutated (h : s.Follows m) {state : Rows} {m' : Ledger} (hs : state.Keeps m') :
    (s.mutated state).Follows m' :=
  ⟨hs, h.counted.next _⟩

theorem Follows.count (h : s.Follows m) :
    s.count.1 = m.entries.size ∧ s.count.2.Follows m := by
  have hfetch := h.counted.fetch_eq
  rw [← h.rows.size_rows] at hfetch
  refine ⟨?_, h.rows, ?_⟩
  · rw [← h.rows.size_rows]
    exact hfetch.1
  · rw [← h.rows.size_rows]
    exact hfetch.2

theorem Follows.perform (h : s.Follows m) (op : Op) :
    (s.perform op).1 = (m.perform op).1 ∧ (s.perform op).2.Follows (m.perform op).2 := by
  cases op with
  | add es => exact ⟨rfl, h.mutated (h.rows.upserts es)⟩
  | update es => exact ⟨rfl, h.mutated (h.rows.upserts es)⟩
  | remove es =>
    obtain ⟨hcount, hrows⟩ := h.rows.deletes es
    exact ⟨hcount, h.mutated hrows⟩
  | count => exact h.count

theorem Follows.run (h : s.Follows m) (ops : List Op) :
    (s.run ops).1 = (m.run ops).1 ∧ (s.run ops).2.Follows (m.run ops).2 := by
  induction ops generalizing s m with
  | nil => exact ⟨rfl, h⟩
  | cons op ops ih =>
    obtain ⟨hanswer, hnext⟩ := h.perform op
    obtain ⟨hanswers, hlast⟩ := ih hnext
    refine ⟨?_, hlast⟩
    rw [Store.run, Ledger.run]
    exact congrArg₂ List.cons hanswer hanswers

/-- Every look at a store shows a ledger. -/
structure Shows (s : Store) (m : Ledger) : Prop where
  /-- The entries stand in order of key and identifier, without repetition. -/
  sorted : (s.get none).Pairwise Entry.Before
  /-- They are those of the ledger, each with the address that its peer gave last. -/
  entries : (s.get none).Perm (m.list.map m.shown)
  find : ∀ id : EntryId, s.find? id = (m.entries[id]?).map m.shown
  contains : ∀ id : EntryId, s.contains id = m.entries.contains id
  count : s.count.1 = m.entries.size
  /-- Every peer that an entry names is counted once. -/
  peers : s.peerCount = (m.list.map (·.peer.id)).toFinset.card

theorem Follows.shows (h : s.Follows m) : s.Shows m where
  sorted := s.state.pairwise_entries
  entries := h.rows.entries_perm
  find := h.rows.find?
  contains id := by
    rw [Store.contains, Std.ExtTreeMap.contains_eq_isSome_getElem?, h.rows.keyOf,
      Option.isSome_map, Std.ExtTreeMap.contains_eq_isSome_getElem?]
  count := h.count.1
  peers := h.rows.size_peers

/-- **A store is a plain map.**  Whatever is put, removed and counted, a store gives the answers of
a ledger and shows the ledger. -/
theorem shows_ledger (name : String) (ops : List Op) :
    ((named name).run ops).1 = (Ledger.empty.run ops).1 ∧
      ((named name).run ops).2.Shows (Ledger.empty.run ops).2 := by
  obtain ⟨hanswers, hfollows⟩ := (follows_named name).run ops
  exact ⟨hanswers, hfollows.shows⟩

end Store

end TrieOverlay
