import TrieOverlay.Forms.Entry
import TrieOverlay.Node.Changes

/-!
# What the application asks and is told

The records that the application and other peers send to a node, and those that they get.  An item
without a type has the default type, and a change propagates unless it says that it does not.
-/

namespace TrieOverlay

open Json (Written)

/-- An item to make an entry for. -/
structure NewItem where
  /-- The type of the item. -/
  typeName : String
  /-- What names the item. -/
  payload : String
deriving DecidableEq, Repr

/-- New entries to insert. -/
structure InsertRequest where
  /-- The items. -/
  items : List NewItem
  /-- Whether other peers are told. -/
  propagate : Bool
deriving DecidableEq, Repr

/-- A new payload of an entry. -/
structure ItemUpdate where
  /-- The entry. -/
  id : EntryId
  /-- Its new payload. -/
  payload : String
deriving DecidableEq, Repr

/-- Entries to update. -/
structure UpdateRequest where
  /-- The new payloads. -/
  items : List ItemUpdate
deriving DecidableEq, Repr

/-- Entries to delete. -/
structure DeleteRequest where
  /-- The entries. -/
  ids : List EntryId
  /-- Whether other peers are told. -/
  propagate : Bool
deriving DecidableEq, Repr

/-- What became of an update or a deletion. -/
structure ChangeResponse where
  /-- The number of entries that were known. -/
  accepted : Nat
  /-- The identifiers that were not. -/
  unknown : List EntryId
deriving DecidableEq, Repr

/-- The entries that a query or an insertion answers with. -/
structure EntriesResponse where
  /-- The entries. -/
  entries : List Entry
deriving DecidableEq, Repr

/-- Whether a message was taken. -/
structure RouteResponse where
  /-- Whether it was. -/
  accepted : Bool
deriving DecidableEq, Repr

namespace NewItem

/-- An item as a record. -/
def toJson (i : NewItem) : Json :=
  .record [("type_name", .text i.typeName), ("payload", .text i.payload)]

/-- The item that a value writes. -/
def ofWritten? (w : Written) : Option NewItem := do
  let [typeName, payload] ← w.fields? ["type_name", "payload"] | none
  return ⟨← Written.orElse? Written.text? defaultTypeName typeName,
    ← Written.required? Written.text? payload⟩

end NewItem

namespace InsertRequest

/-- A request as a record. -/
def toJson (r : InsertRequest) : Json :=
  .record [("items", .array (r.items.map NewItem.toJson)), ("propagate", .bool r.propagate)]

/-- The request that a value writes. -/
def ofWritten? (w : Written) : Option InsertRequest := do
  let [items, propagate] ← w.fields? ["items", "propagate"] | none
  return ⟨← Written.required? (Written.listOf? NewItem.ofWritten?) items,
    ← Written.orElse? Written.bool? true propagate⟩

end InsertRequest

namespace ItemUpdate

/-- An update as a record. -/
def toJson (u : ItemUpdate) : Json :=
  .record [("id", u.id.toJson), ("payload", .text u.payload)]

/-- The update that a value writes. -/
def ofWritten? (w : Written) : Option ItemUpdate := do
  let [id, payload] ← w.fields? ["id", "payload"] | none
  return ⟨← Written.required? Ident.ofWritten? id, ← Written.required? Written.text? payload⟩

end ItemUpdate

namespace UpdateRequest

/-- A request as a record. -/
def toJson (r : UpdateRequest) : Json :=
  .record [("items", .array (r.items.map ItemUpdate.toJson))]

/-- The request that a value writes. -/
def ofWritten? (w : Written) : Option UpdateRequest := do
  let [items] ← w.fields? ["items"] | none
  return ⟨← Written.required? (Written.listOf? ItemUpdate.ofWritten?) items⟩

end UpdateRequest

namespace DeleteRequest

/-- A request as a record. -/
def toJson (r : DeleteRequest) : Json :=
  .record [("ids", .array (r.ids.map Ident.toJson)), ("propagate", .bool r.propagate)]

/-- The request that a value writes. -/
def ofWritten? (w : Written) : Option DeleteRequest := do
  let [ids, propagate] ← w.fields? ["ids", "propagate"] | none
  return ⟨← Written.required? (Written.listOf? Ident.ofWritten?) ids,
    ← Written.orElse? Written.bool? true propagate⟩

end DeleteRequest

namespace ChangeResponse

/-- An answer as a record. -/
def toJson (r : ChangeResponse) : Json :=
  .record [("accepted", .nat r.accepted), ("unknown", .array (r.unknown.map Ident.toJson))]

/-- The answer that a value writes. -/
def ofWritten? (w : Written) : Option ChangeResponse := do
  let [accepted, unknown] ← w.fields? ["accepted", "unknown"] | none
  return ⟨← Written.required? Written.count? accepted,
    ← Written.required? (Written.listOf? Ident.ofWritten?) unknown⟩

end ChangeResponse

namespace EntriesResponse

/-- An answer as a record. -/
def toJson (r : EntriesResponse) : Json :=
  .record [("entries", Entry.listToJson r.entries)]

/-- The answer that a value writes. -/
def ofWritten? (w : Written) : Option EntriesResponse := do
  let [entries] ← w.fields? ["entries"] | none
  return ⟨← Written.required? Entry.listOfWritten? entries⟩

end EntriesResponse

namespace RouteResponse

/-- An answer as a record. -/
def toJson (r : RouteResponse) : Json :=
  .record [("accepted", .bool r.accepted)]

/-- The answer that a value writes. -/
def ofWritten? (w : Written) : Option RouteResponse := do
  let [accepted] ← w.fields? ["accepted"] | none
  return ⟨← Written.required? Written.bool? accepted⟩

end RouteResponse

namespace Stats

/-- The names of the fields. -/
def fieldNames : List String :=
  ["path", "entries", "peers", "inbound_pending", "outbound_pending", "queued_requests",
    "in_flight"]

/-- What a peer tells about itself, as a record. -/
def toJson (s : Stats) : Json :=
  .record <| fieldNames.zip
    [s.path.toJson, .nat s.entries, .nat s.peers, .nat s.inboundPending, .nat s.outboundPending,
      .nat s.queuedRequests, .nat s.inFlight]

/-- What a value says about a peer. -/
def ofWritten? (w : Written) : Option Stats := do
  let [path, entries, peers, inbound, outbound, queued, inFlight] ← w.fields? fieldNames | none
  return {
    path := ← Written.required? Key.ofWritten? path
    entries := ← Written.required? Written.count? entries
    peers := ← Written.required? Written.count? peers
    inboundPending := ← Written.required? Written.count? inbound
    outboundPending := ← Written.required? Written.count? outbound
    queuedRequests := ← Written.required? Written.count? queued
    inFlight := ← Written.required? Written.count? inFlight }

end Stats

end TrieOverlay
