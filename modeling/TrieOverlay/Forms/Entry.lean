import TrieOverlay.Json.Record
import TrieOverlay.Operation
import TrieOverlay.Peer

/-!
# Entries and peers as JSON

Identifiers and keys are texts, operations are their codes, and entries and peers are records.
Every `toJson` has an `ofWritten?` beside it that reads what it writes.
-/

namespace TrieOverlay

open Json (Written)

/-! ### Identifiers, keys and operations -/

/-- An identifier as a text. -/
def Ident.toJson {kind : IdentKind} (i : Ident kind) : Json :=
  .text i.text

/-- The identifier that a value writes. -/
def Ident.ofWritten? {kind : IdentKind} (w : Written) : Option (Ident kind) :=
  w.text?.map Ident.mk

/-- A key as a text. -/
def Key.toJson (k : Key) : Json :=
  .text k.toString

/-- The key that a value writes. -/
def Key.ofWritten? (w : Written) : Option Key :=
  w.text? >>= Key.ofString?

/-- An operation as its code. -/
def Operation.toJson (o : Operation) : Json :=
  .nat o.code

/-- The operation that a value writes; codes have eight bits. -/
def Operation.ofWritten? (w : Written) : Option Operation :=
  w.natUpTo? 255 >>= Operation.ofCode?

/-! ### Peers -/

/-- A peer as a record. -/
def PeerInfo.toJson (p : PeerInfo) : Json :=
  .record [("id", p.id.toJson), ("address", .text p.address)]

/-- The peer that a value writes. -/
def PeerInfo.ofWritten? (w : Written) : Option PeerInfo := do
  let [id, address] ← w.fields? ["id", "address"] | none
  return ⟨← Written.required? Ident.ofWritten? id, ← Written.required? Written.text? address⟩

/-- A neighbour as a record of its identity and its path. -/
def Neighbour.toJson (p : Neighbour) : Json :=
  .record [("info", p.info.toJson), ("path", p.path.toJson)]

/-- The neighbour that a value writes. -/
def Neighbour.ofWritten? (w : Written) : Option Neighbour := do
  let [info, path] ← w.fields? ["info", "path"] | none
  return ⟨← Written.required? PeerInfo.ofWritten? info, ← Written.required? Key.ofWritten? path⟩

/-- A neighbour as a record without inner records. -/
def Neighbour.toFlatJson (p : Neighbour) : Json :=
  .record [("id", p.info.id.toJson), ("address", .text p.info.address), ("path", p.path.toJson)]

/-- The neighbour that a record without inner records writes. -/
def Neighbour.ofFlat? (w : Written) : Option Neighbour := do
  let [id, address, path] ← w.fields? ["id", "address", "path"] | none
  return ⟨⟨← Written.required? Ident.ofWritten? id, ← Written.required? Written.text? address⟩,
    ← Written.required? Key.ofWritten? path⟩

/-! ### Entries -/

/-- An entry as a record. -/
def Entry.toJson (e : Entry) : Json :=
  .record [("id", e.id.toJson), ("key", e.key.toJson), ("type_name", .text e.typeName),
    ("peer", e.peer.toJson), ("payload", .text e.payload)]

/-- The entry that a value writes. -/
def Entry.ofWritten? (w : Written) : Option Entry := do
  let [id, key, typeName, peer, payload] ←
    w.fields? ["id", "key", "type_name", "peer", "payload"] | none
  return {
    id := ← Written.required? Ident.ofWritten? id
    key := ← Written.required? Key.ofWritten? key
    typeName := ← Written.required? Written.text? typeName
    peer := ← Written.required? PeerInfo.ofWritten? peer
    payload := ← Written.required? Written.text? payload }

/-- Entries as a list. -/
def Entry.listToJson (es : List Entry) : Json :=
  .array (es.map Entry.toJson)

/-- The entries that a value writes. -/
def Entry.listOfWritten? (w : Written) : Option (List Entry) :=
  w.listOf? Entry.ofWritten?

end TrieOverlay
