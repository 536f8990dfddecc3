import TrieOverlay.Bulk.File
import TrieOverlay.Forms.Entry
import TrieOverlay.Message

/-!
# Envelopes

On the wire a message lies in an *envelope*, which says who sends it, how it was routed, and by a
number which kind of message it is; the message itself is the body.  A message that names a bulk
file travels with the lines of the file, since the file means nothing elsewhere: a `Parcel` is a
message with everything that it stands for.

`Envelope.wrap` and `Envelope.unwrap` go between parcels and envelopes, `Envelope.toJson` and
`Envelope.ofWritten?` between envelopes and JSON.
-/

namespace TrieOverlay

open Json (Written)

/-- How a message is routed. -/
inductive Strategy where
  /-- To one peer that takes care of its key. -/
  | greedy
  /-- To all replicas of its sender. -/
  | replicas
deriving DecidableEq, Repr

namespace Strategy

/-- The name of a strategy on the wire. -/
def name : Strategy → String
  | greedy => "Greedy"
  | replicas => "Replicas"

/-- The strategy with a name. -/
def ofName? (s : String) : Option Strategy :=
  if s = "Greedy" then some greedy else if s = "Replicas" then some replicas else none

/-- A strategy as its name. -/
def toJson (s : Strategy) : Json :=
  .text s.name

/-- The strategy that a value writes: its name, or a record that says null under it. -/
def ofWritten? : Written → Option Strategy
  | .text s => s >>= ofName?
  | .object [(s, .null)] => s >>= ofName?
  | _ => none

@[simp] theorem ofName?_name (s : Strategy) : ofName? s.name = some s := by
  cases s <;> rfl

end Strategy

/-! ### Parcels -/

/-- The content of a message: entries, or the lines of a bulk file. -/
inductive Content where
  | entries (batch : List Entry)
  | lines (lines : List String)
deriving DecidableEq, Repr

/-- The kind of message that has a content. -/
def Content.kind : Content → MessageKind
  | .entries _ => .entries
  | .lines _ => .file

/-- A message with its content. -/
structure Parcel where
  /-- What the message is about. -/
  header : Header
  /-- What it carries. -/
  content : Content
deriving DecidableEq, Repr

namespace Parcel

/-- The content of a message; a file is read now, and one that does not exist has no lines. -/
def ofMessage (m : Message) : TryDisk Parcel :=
  match m.cargo with
  | .entries batch => return ⟨m.header, .entries batch⟩
  | .file path => return ⟨m.header, .lines (← Bulk.readLines path)⟩

/-- A parcel as a record. -/
def toJson (p : Parcel) : Json :=
  .record [("id", p.header.id.toJson), ("branch_key", p.header.branch.toJson),
    ("operation", p.header.operation.toJson), ("parent_id", p.header.parent.toJson),
    match p.content with
    | .entries batch => ("entries", Entry.listToJson batch)
    | .lines lines => ("lines", .texts lines)]

/-- The header that four fields write. -/
def headerOf? (id branch operation parent : Option Written) : Option Header :=
  return {
    id := ← Written.required? Ident.ofWritten? id
    branch := ← Written.required? Key.ofWritten? branch
    operation := ← Written.required? Operation.ofWritten? operation
    parent := ← Written.required? Ident.ofWritten? parent }

/-- The parcel of a kind that a value writes. -/
def ofWritten? (kind : MessageKind) (w : Written) : Option Parcel :=
  match kind with
  | .entries => do
    let [id, branch, operation, batch, parent] ←
      w.fields? ["id", "branch_key", "operation", "entries", "parent_id"] | none
    return ⟨← headerOf? id branch operation parent,
      .entries (← Written.required? Entry.listOfWritten? batch)⟩
  | .file => do
    let [id, branch, operation, parent, lines] ←
      w.fields? ["id", "branch_key", "operation", "parent_id", "lines"] | none
    return ⟨← headerOf? id branch operation parent,
      .lines (← Written.required? (Written.listOf? Written.text?) lines)⟩

end Parcel

/-! ### Envelopes -/

/-- A message on the wire. -/
structure Envelope where
  /-- How it is routed. -/
  strategy : Strategy
  /-- Who sends it. -/
  sender : PeerId
  /-- The number of its kind. -/
  kindCode : Nat
  /-- The message. -/
  body : Json
deriving Repr

/-- Why an envelope has no message. -/
inductive EnvelopeError where
  /-- No kind of message has the number. -/
  | unknownKind (code : Nat)
  /-- The body is no message of the kind. -/
  | malformedBody
deriving DecidableEq, Repr

namespace Envelope

/-- The wording for a number that no kind of message has. -/
def unknownKindMessage (code : Nat) : String :=
  "unknown message type " ++ toString code

/-- The wording for a message whose file cannot be read. -/
def unreadableMessage (id : MessageId) : String :=
  "reading payload of message " ++ id.text

/-- The envelope of a parcel. -/
def wrap (strategy : Strategy) (sender : PeerId) (p : Parcel) : Envelope :=
  ⟨strategy, sender, p.content.kind.code, p.toJson⟩

/-- The envelope of a message, whose file is read now. -/
def ofMessage (strategy : Strategy) (sender : PeerId) (m : Message) : TryDisk Envelope :=
  return wrap strategy sender (← Parcel.ofMessage m)

/-- The parcel of an envelope. -/
def unwrap (e : Envelope) : Except EnvelopeError Parcel :=
  match MessageKind.ofCode? e.kindCode with
  | none => .error (.unknownKind e.kindCode)
  | some kind =>
    match Parcel.ofWritten? kind e.body.toWritten with
    | some p => .ok p
    | none => .error .malformedBody

/-- Whether the message comes from a replica. -/
def viaReplica (e : Envelope) : Bool :=
  e.strategy == .replicas

/-- An envelope as a record. -/
def toJson (e : Envelope) : Json :=
  .record [("strategy", e.strategy.toJson), ("sender", e.sender.toJson),
    ("message_type", .nat e.kindCode), ("body", e.body)]

/-- The envelope that a value writes; the number of the kind has sixteen bits. -/
def ofWritten? (w : Written) : Option Envelope := do
  let [strategy, sender, kindCode, body] ←
    w.fields? ["strategy", "sender", "message_type", "body"] | none
  return {
    strategy := ← Written.required? Strategy.ofWritten? strategy
    sender := ← Written.required? Ident.ofWritten? sender
    kindCode := ← Written.required? (Written.natUpTo? (UInt16.size - 1)) kindCode
    body := ← Written.required? (Written.toJsonWithin? (Written.depthLimit - 1)) body }

end Envelope

end TrieOverlay
