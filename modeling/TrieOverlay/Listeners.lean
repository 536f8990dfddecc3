import TrieOverlay.Entry

/-!
# Listeners

Parties may ask to hear of the changes to entries of a type.  `Listeners.notify` hands a batch of
changed entries out: the batch is grouped by type, the groups in order of the type names, and every
listener of a type hears of its group, in the order in which they registered.
-/

namespace TrieOverlay

/-- What happened to entries. -/
inductive Change where
  | inserted
  | updated
  | deleted
deriving DecidableEq, Repr

/-- The name of a change. -/
def Change.name : Change → String
  | inserted => "Inserted"
  | updated => "Updated"
  | deleted => "Deleted"

/-- A party that wants to hear of changes. -/
inductive Listener where
  /-- A party with a name. -/
  | named (name : String)
  /-- A party that does nothing with what it hears. -/
  | silent
deriving DecidableEq, Repr

/-- What one listener hears at once. -/
structure Event where
  /-- The listener. -/
  listener : Listener
  /-- What happened. -/
  kind : Change
  /-- The entries it happened to. -/
  entries : List Entry
deriving DecidableEq, Repr

/-- The listeners of every type. -/
structure Listeners where
  /-- The listeners of a type in the order of their registration. -/
  ofType : Std.ExtTreeMap String (List Listener)

namespace Listeners

/-- No listeners. -/
def empty : Listeners := ⟨∅⟩

instance : Inhabited Listeners := ⟨empty⟩

/-- The listeners of a type. -/
def get (ls : Listeners) (type : String) : List Listener :=
  ls.ofType[type]?.getD []

/-- The listeners with one more. -/
def register (ls : Listeners) (type : String) (l : Listener) : Listeners :=
  ⟨ls.ofType.insert type (ls.get type ++ [l])⟩

/-- The number of listeners of a type. -/
def count (ls : Listeners) (type : String) : Nat :=
  (ls.get type).length

/-- The entries by type. -/
def byType (entries : List Entry) : Std.ExtTreeMap String (List Entry) :=
  entries.foldl (fun m e => m.alter e.typeName fun es => some (es.getD [] ++ [e])) ∅

/-- What the listeners hear of changed entries. -/
def notify (ls : Listeners) (kind : Change) (entries : List Entry) : List Event :=
  (byType entries).toList.flatMap fun (type, group) =>
    (ls.get type).map fun l => ⟨l, kind, group⟩

end Listeners

end TrieOverlay
