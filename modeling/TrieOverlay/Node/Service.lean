import TrieOverlay.Envelope
import TrieOverlay.Forms.Api
import TrieOverlay.Node.Cycle

/-!
# What a node does for others

A node takes messages from other peers (`receive`) and serves the requests of the application.  Each
answer has a status, whose number is the one that HTTP gives to it.
-/

namespace TrieOverlay

/-- How an answer came out. -/
inductive Status where
  /-- Done. -/
  | ok
  /-- The request makes no sense. -/
  | badRequest
  /-- There is nothing to ask at this place. -/
  | notFound
  /-- There is nothing to ask at this place in this way. -/
  | methodNotAllowed
  /-- The request is not written in JSON. -/
  | unsupportedMediaType
  /-- The request is JSON, but not the record that belongs here. -/
  | unprocessable
  /-- The node could not do it. -/
  | internalError
deriving DecidableEq, Repr

/-- The number of a status. -/
def Status.code : Status → Nat
  | ok => 200
  | badRequest => 400
  | notFound => 404
  | methodNotAllowed => 405
  | unsupportedMediaType => 415
  | unprocessable => 422
  | internalError => 500

namespace Node

/-- The payload of a delivered message; lines go to a scratch file. -/
def payloadOfContent (n : Node) : Content → Except StorageError Payload × Node
  | .entries batch => (.ok (.entries batch), n)
  | .lines lines =>
    let (file, n) := n.tryOnDisk (ScratchFile.ofLines n.holdings.scratch lines)
    (file.map .file, n)

/-- A message of another peer becomes a request, unless the envelope has no message or its lines
cannot be written. -/
def receive (n : Node) (e : Envelope) : (Status × RouteResponse) × Node :=
  match e.unwrap with
  | .error _ => ((.badRequest, ⟨false⟩), n)
  | .ok parcel =>
    match n.payloadOfContent parcel.content with
    | (.error _, n) => ((.internalError, ⟨false⟩), n)
    | (.ok payload, n) =>
      let h := parcel.header
      ((.ok, ⟨true⟩), n.submitFrom h.operation payload h.id h.parent e.viaReplica)

/-- Inserts new entries for items, in order. -/
def insertItems (n : Node) (r : InsertRequest) : EntriesResponse × Node :=
  let (entries, n) := n.createAll (r.items.map fun i => (i.typeName, i.payload))
  (⟨entries⟩, n.insert entries r.propagate)

/-- The entry that an update makes, or the identifier that is not known. -/
def updatedEntry (n : Node) (u : ItemUpdate) : Entry ⊕ EntryId :=
  match n.find? u.id with
  | some stored => .inl (stored.withPayload u.payload (n.keys.generate stored.typeName u.payload))
  | none => .inr u.id

/-- Updates the entries that are known. -/
def updateItems (n : Node) (r : UpdateRequest) : ChangeResponse × Node :=
  let found := r.items.map n.updatedEntry
  let known := found.filterMap Sum.getLeft?
  (⟨known.length, found.filterMap Sum.getRight?⟩, n.update known)

/-- Deletes the entries that are known. -/
def deleteIds (n : Node) (r : DeleteRequest) : ChangeResponse × Node :=
  let known := r.ids.filterMap n.find?
  let unknown := r.ids.filter fun id => (n.find? id).isNone
  (⟨known.length, unknown⟩, n.delete known r.propagate)

/-- The entries below the key that a text writes. -/
def queryText (n : Node) (text : String) : Status × EntriesResponse :=
  match Key.ofString? text with
  | some key => (.ok, ⟨n.query key⟩)
  | none => (.badRequest, ⟨[]⟩)

end Node

end TrieOverlay
