import TrieOverlay.Entry
import TrieOverlay.Signature

/-!
# The store

The entries that a peer holds, ordered by key and identifier, so that the entries below a key are
one range (`get`).  Three maps move together:

* `rows` has the entries by key and identifier, without the contact address of their peer;
* `keyOf` has the key of every identifier;
* `peers` has one record per peer with its address and the number of rows that name it, so all
  entries of a peer show the address that was heard last.

The number of entries and the last sample are remembered under the signature of the store.
-/

namespace TrieOverlay

/-- The place of a row: its key, and among rows of one key its identifier. -/
structure RowPlace where
  /-- The key. -/
  key : Key
  /-- The identifier. -/
  id : EntryId
deriving DecidableEq, Repr

namespace RowPlace

instance : Ord RowPlace :=
  ⟨compareLex (compareOn RowPlace.key) (compareOn RowPlace.id)⟩

instance : Std.TransOrd RowPlace :=
  inferInstanceAs (Std.TransCmp (compareLex (compareOn RowPlace.key) (compareOn RowPlace.id)))

instance : Std.LawfulEqOrd RowPlace where
  eq_of_compare {a b} h := by
    obtain ⟨ak, ai⟩ := a
    obtain ⟨bk, bi⟩ := b
    simp only [compare, compareLex, compareOn, Ordering.then_eq_eq] at h
    have := Std.LawfulEqOrd.eq_of_compare (a := ak) (b := bk) h.1
    have := Std.LawfulEqOrd.eq_of_compare (a := ai) (b := bi) h.2
    simp_all

end RowPlace

/-- An entry without its place and without the address of its peer. -/
structure Row where
  /-- The type of the item. -/
  typeName : String
  /-- The peer that has the item. -/
  peer : PeerId
  /-- What names the item. -/
  payload : String
deriving DecidableEq, Repr

/-- What is known of a peer. -/
structure PeerUse where
  /-- The peer, with the address heard last. -/
  info : PeerInfo
  /-- The number of rows that name it. -/
  rows : Nat
deriving DecidableEq, Repr

/-- Identifiers picked from a table. -/
structure Sample where
  /-- The number of the pick, which tells two picks apart. -/
  serial : Nat
  /-- The identifiers. -/
  ids : List EntryId
deriving DecidableEq, Repr

/-- The three maps. -/
structure Store.Rows where
  /-- The rows in order of their places. -/
  rows : Std.ExtTreeMap RowPlace Row
  /-- The key of every identifier. -/
  keyOf : Std.ExtTreeMap EntryId Key
  /-- The record of every peer that a row names. -/
  peers : Std.ExtTreeMap PeerId PeerUse

namespace Store.Rows

/-- No rows. -/
def empty : Store.Rows := ⟨∅, ∅, ∅⟩

instance : Inhabited Store.Rows := ⟨empty⟩

/-- The entry of a row; a peer without a record would show no address. -/
def entryOf (s : Store.Rows) (place : RowPlace) (row : Row) : Entry where
  id := place.id
  key := place.key
  typeName := row.typeName
  peer := match s.peers[row.peer]? with
    | some record => record.info
    | none => ⟨row.peer, ""⟩
  payload := row.payload

/-- The record of a peer with one row less, or no record if that was the last. -/
def uncount (record : PeerUse) : Option PeerUse :=
  if record.rows - 1 = 0 then none else some { record with rows := record.rows - 1 }

/-- The rows without those of an identifier; whether there was one. -/
def delete (s : Store.Rows) (id : EntryId) : Bool × Store.Rows :=
  match s.keyOf[id]? with
  | none => (false, s)
  | some key =>
    let keyOf := s.keyOf.erase id
    match s.rows[RowPlace.mk key id]? with
    | none => (true, { s with keyOf })
    | some row =>
      (true, ⟨s.rows.erase ⟨key, id⟩, keyOf, s.peers.alter row.peer (·.bind uncount)⟩)

/-- The record of a peer with one row more and the address of this row. -/
def count (peer : PeerInfo) (record : Option PeerUse) : PeerUse :=
  match record with
  | some r => ⟨⟨r.info.id, peer.address⟩, r.rows + 1⟩
  | none => ⟨peer, 1⟩

/-- The rows with an entry, in the place of the one with its identifier if there is one. -/
def upsert (s : Store.Rows) (e : Entry) : Store.Rows :=
  let s := (s.delete e.id).2
  { rows := s.rows.insert ⟨e.key, e.id⟩ ⟨e.typeName, e.peer.id, e.payload⟩
    keyOf := s.keyOf.insert e.id e.key
    peers := s.peers.alter e.peer.id fun record => some (count e.peer record) }

/-- The rows after deleting several identifiers, and how many of these had a row. -/
def deleteAll (s : Store.Rows) : List EntryId → Nat × Store.Rows
  | [] => (0, s)
  | id :: ids =>
    let (found, s) := s.delete id
    let (n, s) := s.deleteAll ids
    (n + found.toNat, s)

/-- The entry with an identifier. -/
def find? (s : Store.Rows) (id : EntryId) : Option Entry := do
  let key ← s.keyOf[id]?
  let row ← s.rows[RowPlace.mk key id]?
  return s.entryOf ⟨key, id⟩ row

/-- The entries in order of key and identifier. -/
def entries (s : Store.Rows) : List Entry :=
  s.rows.toList.map fun (place, row) => s.entryOf place row

/-- The rows from the first place of a key on, up to the first that does not lie below the key. -/
def rowsBelow (s : Store.Rows) (key : Key) : List (RowPlace × Row) :=
  let fromKey := s.rows.toList.dropWhile fun (place, _) => compare place ⟨key, ⟨""⟩⟩ == .lt
  fromKey.takeWhile fun (place, _) => key.isPrefixOf place.key

/-- The entries below a key in order. -/
def entriesBelow (s : Store.Rows) (key : Key) : List Entry :=
  (s.rowsBelow key).map fun (place, row) => s.entryOf place row

/-- The entries that a peer at `path` is not responsible for. -/
def foreignTo (s : Store.Rows) (path : Key) : List Entry :=
  (s.rows.toList.filter fun (place, _) => !place.key.isCompatibleWith path).map
    fun (place, row) => s.entryOf place row

end Store.Rows

/-- The entries that a peer holds. -/
structure Store where
  /-- What the store is called. -/
  name : String
  /-- The entries. -/
  state : Store.Rows
  /-- The version of the store. -/
  signature : Signature
  /-- The number of entries, if it was counted. -/
  counted : Memo Nat
  /-- The last sample with the size that was asked for. -/
  sampled : Memo (Nat × Sample)
  /-- The number of samples picked so far. -/
  picks : Nat

namespace Store

/-- An empty store. -/
def named (name : String) : Store :=
  ⟨name, .empty, .first, .empty, .empty, 0⟩

/-- The store after a mutation. -/
def mutated (s : Store) (state : Store.Rows) : Store :=
  { s with state, signature := s.signature.next }

/-! ### Looking -/

/-- The entry with an identifier. -/
def find? (s : Store) (id : EntryId) : Option Entry :=
  s.state.find? id

/-- Whether there is an entry with an identifier. -/
def contains (s : Store) (id : EntryId) : Bool :=
  s.state.keyOf.contains id

/-- The number of peers that entries name. -/
def peerCount (s : Store) : Nat :=
  s.state.peers.size

/-- The entries below a key, or all of them, in order of key and identifier. -/
def get (s : Store) : Option Key → List Entry
  | none => s.state.entries
  | some key => s.state.entriesBelow key

/-- The entries that a peer at `path` is not responsible for. -/
def foreignTo (s : Store) (path : Key) : List Entry :=
  s.state.foreignTo path

/-- The number of entries, counted once per signature. -/
def count (s : Store) : Nat × Store :=
  let (n, counted) := Id.run <| s.counted.fetch s.signature (pure s.state.rows.size)
  (n, { s with counted })

/-! ### Changing -/

/-- Puts entries into the store, each in the place of the one with its identifier; their number. -/
def add (s : Store) (entries : List Entry) : Nat × Store :=
  (entries.length, s.mutated (entries.foldl .upsert s.state))

/-- The same as `add`: an update of an entry that is not there puts it there. -/
def update (s : Store) (entries : List Entry) : Nat × Store :=
  s.add entries

/-- Removes the entries with the identifiers of the given ones; how many there were. -/
def remove (s : Store) (entries : List Entry) : Nat × Store :=
  let (n, state) := s.state.deleteAll (entries.map (·.id))
  (n, s.mutated state)

/-! ### Samples -/

/-- A new sample: the first `size` identifiers after shuffling. -/
def pick (s : Store) (shuffle : List EntryId → List EntryId) (size : Nat) :
    (Nat × Sample) × Store :=
  ((size, ⟨s.picks, (shuffle s.state.keyOf.keys).take size⟩), { s with picks := s.picks + 1 })

/-- The sample remembered at the signature, of whatever size, or else a new one of this size, which
is remembered. -/
def lookUpSample (s : Store) (shuffle : List EntryId → List EntryId) (size : Nat) :
    (Nat × Sample) × Store :=
  match s.sampled.lookup? s.signature with
  | some found => (found, s)
  | none =>
    let (found, s) := s.pick shuffle size
    (found, { s with sampled := ⟨some (s.signature, found)⟩ })

/-- Forgets the sample. -/
def forgetSample (s : Store) : Store :=
  { s with sampled := s.sampled.forget }

/-- At most `size` identifiers, the same ones until the next mutation or the next sample of another
size. -/
def sample (s : Store) (shuffle : List EntryId → List EntryId) (size : Nat) : Sample × Store :=
  let ((found, picked), s) := s.lookUpSample shuffle size
  if found = size then (picked, s)
  else
    let ((_, picked), s) := s.forgetSample.lookUpSample shuffle size
    (picked, s)

end Store

end TrieOverlay
