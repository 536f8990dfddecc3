import TrieOverlay.Command
import TrieOverlay.Envelope
import TrieOverlay.Forms.Api
import TrieOverlay.Network

/-!
# Answers

The answer to a command is a JSON value made from the values of the library (`Json.of`): an
operation is its name, an entry is the list of its six texts, and a peer is the list of its
identifier, address and path.
-/

namespace TrieOverlay

/-- Types whose values can be answered. -/
class Answerable (α : Type) where
  /-- A value as an answer. -/
  toAnswer : α → Json

namespace Json

/-- A value as an answer. -/
def of {α : Type} [Answerable α] (a : α) : Json :=
  Answerable.toAnswer a

end Json

namespace Answerable

instance : Answerable Json := ⟨id⟩

instance : Answerable Unit := ⟨fun _ => .null⟩

instance : Answerable Nat := ⟨.nat⟩

instance : Answerable Bool := ⟨.bool⟩

instance : Answerable String := ⟨.text⟩

instance : Answerable Key := ⟨Key.toJson⟩

instance {kind : IdentKind} : Answerable (Ident kind) := ⟨Ident.toJson⟩

instance : Answerable Operation := ⟨fun o => .text o.name⟩

instance : Answerable Ordering where
  toAnswer
    | .lt => .number (.integer (-1))
    | .eq => .number (.integer 0)
    | .gt => .number (.integer 1)

instance {α : Type} [Answerable α] : Answerable (List α) := ⟨fun as => .array (as.map Json.of)⟩

instance {α : Type} [Answerable α] : Answerable (Option α) := ⟨fun a => a.elim .null Json.of⟩

instance : Answerable Entry where
  toAnswer e :=
    .texts [e.id.text, e.key.toString, e.typeName, e.peer.id.text, e.peer.address, e.payload]

instance : Answerable Neighbour where
  toAnswer p := .texts [p.info.id.text, p.info.address, p.path.toString]

instance : Answerable Placement where
  toAnswer
    | .level n => .nat n
    | .replica => .text "replica"
    | .ignored => .text "ignored"

instance : Answerable Resolution where
  toAnswer
    | .here => .text "local"
    | .remote p => Json.of p
    | .unreachable => .text "unreachable"

instance : Answerable Target where
  toAnswer
    | .toward key => Json.of key
    | .replicas => .null

instance : Answerable Carriage where
  toAnswer c := .record [("key", Json.of c.target), ("kind", .nat c.kind.code),
    ("operation", Json.of c.operation), ("delivered", .bool c.delivered)]

instance {α : Type} [Answerable α] : Answerable (Attempt α) where
  toAnswer a := .record [("operation", Json.of a.operation), ("local", .bool a.isLocal),
    ("entries", Json.of a.payload), ("parent", Json.of a.parent)]

end Answerable

/-- The fields of what a message is about. -/
def Header.toFields (h : Header) : List (String × Json) :=
  [("id", Json.of h.id), ("branch", Json.of h.branch), ("operation", Json.of h.operation),
    ("parent", Json.of h.parent)]

instance : Answerable Parcel where
  toAnswer p := .record <| p.header.toFields ++ [("payload", match p.content with
    | .entries batch => .record [("entries", Json.of batch)]
    | .lines lines => .record [("lines", .texts lines)])]

/-- What came of a command; `entry` writes one entry, and `list` several. -/
def Command.Result.toAnswer (list : List Entry → Json) (entry : Entry → Json) :
    Command.Result → Json
  | .done => .null
  | .count n => .nat n
  | .flag b => .bool b
  | .path key => .text key.display
  | .created e => entry e
  | .found e => e.elim .null entry
  | .entries es => list es
  | .stats s => s.toJson
  | .queues q => .record [("empty", .bool q.isEmpty), ("len", .nat q.length)]
  | .submitted isLocal => .record [("local", .bool isLocal)]

/-- What listeners with a name heard, as lists of the name, what happened, and the entries. -/
def Event.listToAnswer (entries : List Entry → Json) (events : List Event) : Json :=
  .array <| events.filterMap fun e =>
    match e.listener with
    | .named name => some (.array [.text name, .text e.kind.name, entries e.entries])
    | .silent => none

end TrieOverlay
