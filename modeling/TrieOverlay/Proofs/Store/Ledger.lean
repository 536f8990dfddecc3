import Mathlib.Data.Finset.Card
import Mathlib.Data.Finset.Dedup
import Std.Data.ExtTreeMap.Lemmas
import TrieOverlay.Entry

/-!
# Ledgers

A `Ledger` is the plain map that a store stands for: it says of every identifier which entry was put
under it last and not removed since, and of every peer which address was given last, whatever entry
it came with.  `Ledger.ownedBy` has the identifiers of the entries of a peer, which is what the
store counts for every peer.
-/

namespace TrieOverlay

/-- A plain map of entries, and the addresses of the peers. -/
structure Ledger where
  /-- The last entry put under every identifier, unless it was removed since. -/
  entries : Std.ExtTreeMap EntryId Entry
  /-- The last address that an entry of a peer came with. -/
  addresses : Std.ExtTreeMap PeerId String

namespace Ledger

/-- Nothing was put. -/
def empty : Ledger := ⟨∅, ∅⟩

/-- An entry is put. -/
def put (m : Ledger) (e : Entry) : Ledger :=
  ⟨m.entries.insert e.id e, m.addresses.insert e.peer.id e.peer.address⟩

/-- The entry of an identifier is removed; no address is forgotten. -/
def erase (m : Ledger) (id : EntryId) : Ledger :=
  { m with entries := m.entries.erase id }

/-- The entries in order of their identifiers, as they were put. -/
def list (m : Ledger) : List Entry :=
  m.entries.toList.map (·.2)

/-- An entry with the address that its peer gave last; a peer that an entry came from gave one. -/
def shown (m : Ledger) (e : Entry) : Entry :=
  { e with peer := ⟨e.peer.id, (m.addresses[e.peer.id]?).getD e.peer.address⟩ }

/-- The identifiers among the given ones that have an entry, each of them once. -/
def among (m : Ledger) (es : List Entry) : Finset EntryId :=
  (es.map (·.id)).toFinset.filter fun id => m.entries.contains id

/-- The identifiers of the entries of a peer. -/
def ownedBy (m : Ledger) (p : PeerId) : Finset EntryId :=
  m.entries.keys.toFinset.filter fun id => (m.entries[id]?).map (·.peer.id) = some p

variable {m : Ledger} {e : Entry} {id : EntryId} {p : PeerId}

theorem getElem?_put (m : Ledger) (e : Entry) (id : EntryId) :
    (m.put e).entries[id]? = if e.id = id then some e else m.entries[id]? := by
  simp [put, Std.ExtTreeMap.getElem?_insert, Std.LawfulEqCmp.compare_eq_iff_eq]

theorem getElem?_erase (m : Ledger) (id id' : EntryId) :
    (m.erase id).entries[id']? = if id = id' then none else m.entries[id']? := by
  simp [erase, Std.ExtTreeMap.getElem?_erase, Std.LawfulEqCmp.compare_eq_iff_eq]

theorem addresses_put (m : Ledger) (e : Entry) (p : PeerId) :
    (m.put e).addresses[p]? = if e.peer.id = p then some e.peer.address else m.addresses[p]? := by
  simp [put, Std.ExtTreeMap.getElem?_insert, Std.LawfulEqCmp.compare_eq_iff_eq]

theorem erase_of_none (h : m.entries[id]? = none) : m.erase id = m := by
  rw [erase]
  congr
  refine Std.ExtTreeMap.ext_getElem? fun id' => ?_
  rw [Std.ExtTreeMap.getElem?_erase]
  split
  · rename_i hc
    rw [← Std.LawfulEqCmp.compare_eq_iff_eq.1 hc, h]
  · rfl

/-- Putting an entry takes the place of the one with its identifier. -/
theorem put_erase (m : Ledger) (e : Entry) : (m.erase e.id).put e = m.put e := by
  rw [put, put, erase]
  congr 1
  refine Std.ExtTreeMap.ext_getElem? fun id => ?_
  simp only [Std.ExtTreeMap.getElem?_insert, Std.ExtTreeMap.getElem?_erase]
  split <;> rfl

theorem mem_ownedBy : id ∈ m.ownedBy p ↔ ∃ e, m.entries[id]? = some e ∧ e.peer.id = p := by
  rw [ownedBy, Finset.mem_filter, List.mem_toFinset, Std.ExtTreeMap.mem_keys,
    Std.ExtTreeMap.mem_iff_isSome_getElem?]
  cases m.entries[id]? <;> simp

theorem ownedBy_erase (m : Ledger) (id : EntryId) (p : PeerId) :
    (m.erase id).ownedBy p = (m.ownedBy p).erase id := by
  ext id'
  rw [Finset.mem_erase, mem_ownedBy, mem_ownedBy, getElem?_erase]
  by_cases hid : id = id'
  · simp [hid]
  · simp [hid, Ne.symm hid]

theorem ownedBy_put (h : m.entries[e.id]? = none) (p : PeerId) :
    (m.put e).ownedBy p = if e.peer.id = p then insert e.id (m.ownedBy p) else m.ownedBy p := by
  have hnot : e.id ∉ m.ownedBy p := fun hc => by
    obtain ⟨e', he', -⟩ := mem_ownedBy.1 hc
    rw [h] at he'
    cases he'
  ext id
  rw [mem_ownedBy, getElem?_put]
  by_cases hid : e.id = id <;> by_cases hp : e.peer.id = p
  · simp [hid, hp]
  · simpa [hid, hp] using hid ▸ hnot
  · rw [if_neg hid, ← mem_ownedBy, if_pos hp, Finset.mem_insert, or_iff_right (Ne.symm hid)]
  · rw [if_neg hid, ← mem_ownedBy, if_neg hp]

/-- Every entry has the identifier that it is under. -/
def Named (m : Ledger) : Prop :=
  ∀ (id : EntryId) (e : Entry), m.entries[id]? = some e → e.id = id

theorem named_empty : empty.Named := by
  intro id e h
  simp [empty] at h

theorem Named.put (h : m.Named) (e : Entry) : (m.put e).Named := by
  intro id e' he'
  rw [getElem?_put] at he'
  split at he'
  · rw [← Option.some.inj he']
    assumption
  · exact h id e' he'

theorem Named.erase (h : m.Named) (id : EntryId) : (m.erase id).Named := by
  intro id' e he
  rw [getElem?_erase] at he
  split at he
  · cases he
  · exact h id' e he

theorem Named.mem_list (h : m.Named) : e ∈ m.list ↔ m.entries[e.id]? = some e := by
  rw [list, List.mem_map]
  constructor
  · rintro ⟨⟨id, e'⟩, hmem, rfl⟩
    rw [Std.ExtTreeMap.mem_toList_iff_getElem?_eq_some] at hmem
    rwa [h id e' hmem]
  · intro he
    exact ⟨(e.id, e), Std.ExtTreeMap.mem_toList_iff_getElem?_eq_some.2 he, rfl⟩

theorem Named.map_id_list (h : m.Named) : m.list.map (·.id) = m.entries.keys := by
  rw [list, List.map_map, ← Std.ExtTreeMap.map_fst_toList_eq_keys]
  refine List.map_congr_left fun x hx => ?_
  exact h x.1 x.2 (Std.ExtTreeMap.mem_toList_iff_getElem?_eq_some.1 hx)

theorem Named.nodup_list (h : m.Named) : m.list.Nodup :=
  List.Nodup.of_map _ (h.map_id_list ▸ Std.ExtTreeMap.nodup_keys)

theorem length_list (m : Ledger) : m.list.length = m.entries.size := by
  rw [list, List.length_map, Std.ExtTreeMap.length_toList]

theorem among_cons (m : Ledger) (e : Entry) (es : List Entry) :
    m.among (e :: es) =
      if m.entries.contains e.id then insert e.id (m.among es) else m.among es := by
  rw [among, List.map_cons, List.toFinset_cons, Finset.filter_insert]
  rfl

theorem among_erase (m : Ledger) (id : EntryId) (es : List Entry) :
    (m.erase id).among es = (m.among es).erase id := by
  ext id'
  rw [Finset.mem_erase, among, among, Finset.mem_filter, Finset.mem_filter,
    Std.ExtTreeMap.contains_eq_isSome_getElem?, getElem?_erase,
    Std.ExtTreeMap.contains_eq_isSome_getElem?]
  by_cases hid : id = id'
  · simp [hid]
  · simp [hid, Ne.symm hid]

/-- The identifiers that have an entry can be counted while they are removed one after the other. -/
theorem card_among_cons (m : Ledger) (e : Entry) (es : List Entry) :
    (m.among (e :: es)).card =
      ((m.erase e.id).among es).card + (m.entries.contains e.id).toNat := by
  rw [among_cons, among_erase]
  cases hc : m.entries.contains e.id with
  | true =>
    rw [if_pos rfl, ← Finset.erase_insert_eq_erase]
    exact (Finset.card_erase_add_one (Finset.mem_insert_self ..)).symm
  | false =>
    have hnot : e.id ∉ m.among es := fun hmem => by
      rw [among, Finset.mem_filter, hc] at hmem
      cases hmem.2
    rw [if_neg (by simp), Finset.erase_eq_of_notMem hnot]
    rfl

/-- A peer has an entry exactly if it is named by one of the list. -/
theorem Named.ownedBy_eq_empty_iff (h : m.Named) :
    m.ownedBy p = ∅ ↔ p ∉ (m.list.map (·.peer.id)).toFinset := by
  rw [← Finset.not_nonempty_iff_eq_empty, not_iff_not, List.mem_toFinset, List.mem_map]
  constructor
  · rintro ⟨id, hid⟩
    obtain ⟨e, he, hp⟩ := mem_ownedBy.1 hid
    exact ⟨e, h.mem_list.2 (h id e he ▸ he), hp⟩
  · rintro ⟨e, he, hp⟩
    exact ⟨e.id, mem_ownedBy.2 ⟨e, h.mem_list.1 he, hp⟩⟩

end Ledger

end TrieOverlay
