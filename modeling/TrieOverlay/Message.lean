import TrieOverlay.Entry
import TrieOverlay.Operation
import TrieOverlay.Disk.Path

/-!
# Messages

Peers move entries to the peer that is responsible for them by messages.  A message carries a batch
of entries, or names the bulk file that has them; each of the two kinds has a number, which is what
travels between peers.
-/

namespace TrieOverlay

/-- The kinds of messages. -/
inductive MessageKind where
  | entries
  | file
deriving DecidableEq, Repr

namespace MessageKind

/-- The number of a kind on the wire. -/
def code : MessageKind → Nat
  | entries => 1
  | file => 2

/-- The kind with a number. -/
def ofCode? : Nat → Option MessageKind
  | 1 => some entries
  | 2 => some file
  | _ => none

/-- The name of a kind. -/
def name : MessageKind → String
  | entries => "EntriesModifier"
  | file => "FileModifier"

@[simp] theorem ofCode?_code (k : MessageKind) : ofCode? k.code = some k := by
  cases k <;> rfl

theorem code_of_ofCode? {n : Nat} {k : MessageKind} (h : ofCode? n = some k) : k.code = n := by
  match n, h with
  | 1, h | 2, h => cases h; rfl

end MessageKind

/-- What a message is about. -/
structure Header where
  /-- The name of the message. -/
  id : MessageId
  /-- The subtree that the message is for. -/
  branch : Key
  /-- The change that is asked for. -/
  operation : Operation
  /-- The request that started the chain of messages. -/
  parent : RequestId
deriving DecidableEq, Repr

/-- The entries of a message, or the bulk file that has them. -/
inductive Cargo where
  | entries (batch : List Entry)
  | file (path : Path)
deriving DecidableEq, Repr

/-- The kind of message that carries a cargo. -/
def Cargo.kind : Cargo → MessageKind
  | .entries _ => .entries
  | .file _ => .file

/-- A message that a peer sends. -/
structure Message where
  /-- What it is about. -/
  header : Header
  /-- What it carries. -/
  cargo : Cargo
deriving DecidableEq, Repr

/-- The kind of a message. -/
def Message.kind (m : Message) : MessageKind :=
  m.cargo.kind

end TrieOverlay
