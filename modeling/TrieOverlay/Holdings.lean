import TrieOverlay.Bulk.List
import TrieOverlay.Key.Scheme
import TrieOverlay.Listeners
import TrieOverlay.Operation
import TrieOverlay.Partition
import TrieOverlay.Store

/-!
# What a peer holds

`Holdings` has the store of a peer and its buffers, which are bulk lists on the volume of the peer:

* *inbound*: entries that other peers delivered, to be merged into the store;
* *outbound*: one list per operation, with the entries whose delivery failed.

Every change of the store is told to the listeners; `journal` has what they heard and nobody asked
for yet.
-/

namespace TrieOverlay

/-- The store and the buffers of a peer. -/
structure Holdings where
  /-- The entries that the peer holds. -/
  store : Store
  /-- The entries that were delivered. -/
  inbound : BulkList
  /-- The entries to delete elsewhere that could not be delivered. -/
  outboundDelete : BulkList
  /-- The entries to insert elsewhere that could not be delivered. -/
  outboundInsert : BulkList
  /-- The entries to update elsewhere that could not be delivered. -/
  outboundUpdate : BulkList
  /-- The directory of the scratch files. -/
  scratch : Path
  /-- Who hears of changes. -/
  listeners : Listeners
  /-- What they heard. -/
  journal : List Event

namespace Holdings

/-! ### Opening -/

/-- The name of the inbound list. -/
def inboundName : String := "inbound.csv"

/-- The name of an outbound list. -/
def outboundName (o : Operation) : String :=
  "outbound-" ++ toString o.code ++ ".csv"

/-- The name of the directory of the scratch files. -/
def scratchName : String := "scratch"

/-- The outbound list of an operation. -/
def outbound (h : Holdings) : Operation → BulkList
  | .delete => h.outboundDelete
  | .insert => h.outboundInsert
  | .update => h.outboundUpdate

/-- The holdings with another outbound list for an operation. -/
def setOutbound (h : Holdings) (o : Operation) (l : BulkList) : Holdings :=
  match o with
  | .delete => { h with outboundDelete := l }
  | .insert => { h with outboundInsert := l }
  | .update => { h with outboundUpdate := l }

/-- The number of delivered entries. -/
def inboundCount (h : Holdings) : Disk (Nat × Holdings) := do
  let (n, inbound) ← h.inbound.count
  return (n, { h with inbound })

/-- The number of undelivered entries of an operation. -/
def outboundCountOf (h : Holdings) (o : Operation) : Disk (Nat × Holdings) := do
  let (n, l) ← (h.outbound o).count
  return (n, h.setOutbound o l)

/-- The number of undelivered entries. -/
def outboundCount (h : Holdings) : Disk (Nat × Holdings) := do
  let (d, h) ← h.outboundCountOf .delete
  let (i, h) ← h.outboundCountOf .insert
  let (u, h) ← h.outboundCountOf .update
  return (d + i + u, h)

/-- The holdings in a directory, with an empty store.  Scratch files of an earlier run go; the
lists are created if need be. -/
def openAt (dir : Path) : TryDisk Holdings := do
  let scratch := dir.child scratchName
  if (← get).exists? scratch then
    tryCatch (Volume.removeTree scratch) fun _ => pure ()
  Volume.createDirectories scratch
  let inbound ← BulkList.openAt (dir.child inboundName)
  let outboundDelete ← BulkList.openAt (dir.child (outboundName .delete))
  let outboundInsert ← BulkList.openAt (dir.child (outboundName .insert))
  let outboundUpdate ← BulkList.openAt (dir.child (outboundName .update))
  return { store := .named "canonical", inbound, outboundDelete, outboundInsert, outboundUpdate
           scratch, listeners := .empty, journal := [] }

/-! ### The store -/

/-- Tells the listeners of a change. -/
def tell (h : Holdings) (kind : Change) (entries : List Entry) : Holdings :=
  { h with journal := h.journal ++ h.listeners.notify kind entries }

/-- Puts entries into the store; their number. -/
def add (h : Holdings) (entries : List Entry) : Nat × Holdings :=
  let (n, store) := h.store.add entries
  (n, { h with store }.tell .inserted entries)

/-- Updates entries in the store; their number. -/
def update (h : Holdings) (entries : List Entry) : Nat × Holdings :=
  let (n, store) := h.store.update entries
  (n, { h with store }.tell .updated entries)

/-- Removes entries from the store; how many there were. -/
def remove (h : Holdings) (entries : List Entry) : Nat × Holdings :=
  let (n, store) := h.store.remove entries
  (n, { h with store }.tell .deleted entries)

/-- An entry under the key of its payload. -/
def rekey (keys : KeyScheme) (e : Entry) : Entry :=
  e.withKey (keys.generate e.typeName e.payload)

/-- Applies updated entries for a peer at a path.  Each gets the key of its payload.  Those that
still belong to the path are updated, the others are removed, and returned under their new keys. -/
def applyUpdate (h : Holdings) (path : Key) (keys : KeyScheme) (entries : List Entry) :
    List Entry × Holdings :=
  let (staying, leaving) := entries.partition fun e => path.owns (rekey keys e).key
  let h := if staying.isEmpty then h else (h.update (staying.map (rekey keys))).2
  let h := if leaving.isEmpty then h else (h.remove leaving).2
  (leaving.map (rekey keys), h)

/-! ### The buffers -/

/-- Adds delivered entries; the number of those that could be written. -/
def appendInbound (h : Holdings) (entries : List Entry) : TryDisk (Nat × Holdings) := do
  let (n, inbound) ← h.inbound.tryAdd entries
  return (n, { h with inbound })

/-- Adds undelivered entries; the number of those that could be written. -/
def appendOutbound (h : Holdings) (o : Operation) (entries : List Entry) :
    TryDisk (Nat × Holdings) := do
  let (n, l) ← (h.outbound o).tryAdd entries
  return (n, h.setOutbound o l)

/-- The undelivered entries of an operation. -/
def outboundEntries (h : Holdings) (o : Operation) : Disk (List Entry) :=
  (h.outbound o).get none

/-- Whether there are delivered entries. -/
def hasInbound (h : Holdings) : Disk (Bool × Holdings) := do
  let (empty, inbound) ← h.inbound.isEmpty
  return (!empty, { h with inbound })

/-- Whether one of the operations has undelivered entries; the search ends at the first that
has. -/
def hasOutboundAmong (h : Holdings) : List Operation → Disk (Bool × Holdings)
  | [] => return (false, h)
  | o :: os => do
    let (n, h) ← h.outboundCountOf o
    if n = 0 then h.hasOutboundAmong os else return (true, h)

/-- Whether there are undelivered entries. -/
def hasOutbound (h : Holdings) : Disk (Bool × Holdings) :=
  h.hasOutboundAmong Operation.all

/-- Moves the undelivered entries of an operation into a scratch file, unless there are none. -/
def takeOutbound (h : Holdings) (o : Operation) : TryDisk (Option ScratchFile × Holdings) := do
  let (file, l) ← (h.outbound o).takeInto h.scratch
  return (file, h.setOutbound o l)

/-- Moves the delivered entries into the store; their number. -/
def mergeInbound (h : Holdings) : TryDisk (Nat × Holdings) := do
  let (entries, inbound) ← h.inbound.takeAll
  let h := { h with inbound }
  if entries.isEmpty then return (0, h) else return h.add entries

end Holdings

end TrieOverlay
