import TrieOverlay.Node.Basic

/-!
# Changes asked for by the application

The application creates entries and inserts, updates and deletes them at its own peer.  The change
is made in the store of the peer at once, and a request takes it to the peers that are responsible
for the entries and to the replicas.

When the path of the peer has changed, `redistribute` hands the entries that no longer belong here
to their new owners.
-/

namespace TrieOverlay

/-- What a peer tells about itself. -/
structure Stats where
  /-- The subtree it is responsible for. -/
  path : Key
  /-- The number of entries in the store. -/
  entries : Nat
  /-- The number of peers that these entries name. -/
  peers : Nat
  /-- The number of delivered entries that wait to be merged. -/
  inboundPending : Nat
  /-- The number of entries that wait to be sent again. -/
  outboundPending : Nat
  /-- The number of requests that wait. -/
  queuedRequests : Nat
  /-- The number of messages in flight. -/
  inFlight : Nat
deriving DecidableEq, Repr

namespace Node

/-- A new entry of this peer. -/
def create (n : Node) (typeName payload : String) : Entry × Node :=
  let (id, n) := n.newIdent
  (⟨id, n.keys.generate typeName payload, typeName, n.peer.info, payload⟩, n)

/-- New entries of this peer, in order. -/
def createAll (n : Node) : List (String × String) → List Entry × Node
  | [] => ([], n)
  | (typeName, payload) :: items =>
    let (e, n) := n.create typeName payload
    let (es, n) := n.createAll items
    (e :: es, n)

/-- The entry with an identifier. -/
def find? (n : Node) (id : EntryId) : Option Entry :=
  n.holdings.store.find? id

/-- The entries below a key that this peer holds. -/
def query (n : Node) (key : Key) : List Entry :=
  n.holdings.store.get (some key)

/-- Inserts entries here and, if they are to propagate, where they belong. -/
def insert (n : Node) (entries : List Entry) (propagate : Bool) : Node :=
  if entries.isEmpty then n
  else
    let n := { n with holdings := (n.holdings.add entries).2 }
    if propagate then n.submit .insert (.entries entries) else n

/-- Deletes entries here and, if that is to propagate, where they belong. -/
def delete (n : Node) (entries : List Entry) (propagate : Bool) : Node :=
  if entries.isEmpty then n
  else
    let n := { n with holdings := (n.holdings.remove entries).2 }
    if propagate then n.submit .delete (.entries entries) else n

/-- An entry under the key that it is stored with, if it is stored. -/
def underStoredKey (n : Node) (e : Entry) : Entry :=
  match n.find? e.id with
  | some stored => e.withKey stored.key
  | none => e

/-- Updates entries.  The request goes out under the keys that the entries are stored with, so it
reaches the peers that hold the old versions.  What is stored or owned here is updated at once; what
gets a key that lies elsewhere becomes a request to insert it there. -/
def update (n : Node) (entries : List Entry) : Node :=
  if entries.isEmpty then n
  else
    let routed := entries.map n.underStoredKey
    let path := n.peer.path
    let here := routed.filter fun e => path.owns e.key || n.holdings.store.contains e.id
    let (moved, holdings) := n.holdings.applyUpdate path n.keys here
    let n := { n with holdings }.submit .update (.entries routed)
    if moved.isEmpty then n else n.submit .insert (.entries moved)

/-- A sample of the identifiers in the store. -/
def sample (n : Node) (shuffle : List EntryId → List EntryId) (size : Nat) : Sample × Node :=
  let (picked, store) := n.holdings.store.sample shuffle size
  (picked, { n with holdings := { n.holdings with store } })

/-! ### Handing off -/

/-- A transfer that holds some entries, and how many of them could be written. -/
def stage (scratch : Path) (entries : List Entry) : TryDisk (Nat × Transfer) := do
  let transfer ← Transfer.createIn scratch
  transfer.file.orRelease (transfer.stage entries)

/-- Hands the entries that do not belong to the path of this peer to their owners: they are written
to a file, removed here, and the file becomes a request to insert them.  The number of entries in
the file. -/
def redistribute (n : Node) : Except StorageError Nat × Node :=
  let foreign := n.holdings.store.foreignTo n.peer.path
  if foreign.isEmpty then (.ok 0, n)
  else
    match n.tryOnDisk (stage n.holdings.scratch foreign) with
    | (.error e, n) => (.error e, n)
    | (.ok (staged, transfer), n) =>
      let n := { n with holdings := (n.holdings.remove foreign).2 }
      (.ok staged, n.submit .insert (.file transfer.file))

/-! ### Telling about itself -/

/-- The number of entries in the store. -/
def storedCount (n : Node) : Nat × Node :=
  let (count, store) := n.holdings.store.count
  (count, { n with holdings := { n.holdings with store } })

/-- What the peer tells about itself. -/
def stats (n : Node) : Stats × Node :=
  let (entries, n) := n.storedCount
  let (inboundPending, n) := n.ask (·.inboundCount)
  let (outboundPending, n) := n.ask (·.outboundCount)
  ({ path := n.peer.path, entries, peers := n.holdings.store.peerCount, inboundPending
     outboundPending, queuedRequests := n.queues.length
     inFlight := n.entryFlights.size + n.fileFlights.size }, n)

end Node

end TrieOverlay
