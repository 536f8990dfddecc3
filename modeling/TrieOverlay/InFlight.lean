import TrieOverlay.Ident
import TrieOverlay.Operation

/-!
# Messages in flight

A message that was handed to the router is *in flight* until the router reports what became of it.
`InFlight` keeps what is needed then, by the name of the message; the first report takes it out.
-/

namespace TrieOverlay

/-- What is kept of a message in flight. -/
structure Attempt (α : Type) where
  /-- The change that the message asks for. -/
  operation : Operation
  /-- What it carries. -/
  payload : α
  /-- Whether the request came from this peer. -/
  isLocal : Bool
  /-- The request that started the chain of messages. -/
  parent : RequestId
deriving DecidableEq, Repr

/-- The messages in flight. -/
structure InFlight (α : Type) where
  /-- What is kept of each message. -/
  attempts : Std.ExtTreeMap MessageId (Attempt α)

namespace InFlight

variable {α : Type}

/-- No messages. -/
def empty : InFlight α := ⟨∅⟩

instance : Inhabited (InFlight α) := ⟨empty⟩

/-- A message takes off. -/
def register (f : InFlight α) (id : MessageId) (a : Attempt α) : InFlight α :=
  ⟨f.attempts.insert id a⟩

/-- A message arrives; what was kept of it, if it was in flight. -/
def complete (f : InFlight α) (id : MessageId) : Option (Attempt α) × InFlight α :=
  (f.attempts[id]?, ⟨f.attempts.erase id⟩)

/-- Whether a message is in flight. -/
def contains (f : InFlight α) (id : MessageId) : Bool :=
  f.attempts.contains id

/-- The number of messages in flight. -/
def size (f : InFlight α) : Nat :=
  f.attempts.size

/-- The attempts by message. -/
def toList (f : InFlight α) : List (MessageId × Attempt α) :=
  f.attempts.toList

end InFlight

end TrieOverlay
