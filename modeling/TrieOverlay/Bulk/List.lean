import TrieOverlay.Bulk.ScratchFile
import TrieOverlay.Signature

/-!
# Bulk lists

A bulk list is a bulk file used as a list of entries: new entries go to its end, everything else
reads it whole.  The number of entries is remembered under the signature of the list, so a file
that was changed behind the list's back keeps its old count until the next mutation through the
list.

The operations whose name starts with `try` report why they fail; a list on which an operation
fails keeps its signature.  `get`, `add`, `remove` and `update` take a failure for "nothing".
-/

namespace TrieOverlay

/-- A bulk file used as a list of entries. -/
structure BulkList where
  /-- The file. -/
  path : Path
  /-- The version of the list. -/
  signature : Signature
  /-- The number of entries, if it was counted. -/
  counted : Memo Nat

namespace BulkList

/-- The list after a mutation. -/
def renewed (l : BulkList) : BulkList :=
  { l with signature := l.signature.next }

/-- The list of a file; the file and the directories on the way to it are created if need be. -/
def openAt (path : Path) : TryDisk BulkList := do
  if let some parent := path.parent? then
    Volume.createDirectories parent
  Volume.touch path
  return ⟨path, .first, .empty⟩

/-! ### Operations that report failures -/

/-- Adds entries at the end; the number of those that could be written. -/
def tryAdd (l : BulkList) (entries : List Entry) : TryDisk (Nat × BulkList) := do
  let n ← Bulk.append l.path entries
  return (n, l.renewed)

/-- The entries below a key, or all of them. -/
def tryGet (l : BulkList) (below : Option Key) : TryDisk (List Entry) := do
  let entries ← Bulk.readEntries l.path
  return entries.filter fun e => below.all (·.isPrefixOf e.key)

/-- Puts an edited list in the place of the list, unless the edit touched nothing; the number of
entries touched. -/
def tryRewrite (l : BulkList) (edit : List Entry → Nat × List Entry) :
    TryDisk (Nat × BulkList) := do
  let (touched, entries) := edit (← Bulk.readEntries l.path)
  if touched > 0 then
    Bulk.overwrite l.path entries
  return (touched, l.renewed)

/-- The list without the entries that have one of the identifiers, and how many those are. -/
def withoutIds (ids : List EntryId) (entries : List Entry) : Nat × List Entry :=
  let kept := entries.filter fun e => !ids.contains e.id
  (entries.length - kept.length, kept)

/-- The last of some entries with an identifier. -/
def lastWithId? (updates : List Entry) (id : EntryId) : Option Entry :=
  updates.reverse.find? (·.id = id)

/-- The list with every entry that is updated replaced, and how many those are. -/
def withUpdates (updates : List Entry) (entries : List Entry) : Nat × List Entry :=
  let touched := entries.filter fun e => (lastWithId? updates e.id).isSome
  (touched.length, entries.map fun e => (lastWithId? updates e.id).getD e)

/-- Removes the entries that have the identifier of one of the given ones; their number. -/
def tryRemove (l : BulkList) (removed : List Entry) : TryDisk (Nat × BulkList) :=
  l.tryRewrite (withoutIds (removed.map (·.id)))

/-- Replaces every entry by the last given one with its identifier; the number of entries
replaced. -/
def tryUpdate (l : BulkList) (updates : List Entry) : TryDisk (Nat × BulkList) :=
  l.tryRewrite (withUpdates updates)

/-- The entries; afterwards the list is empty. -/
def takeAll (l : BulkList) : TryDisk (List Entry × BulkList) := do
  let entries ← Bulk.readEntries l.path
  Volume.clear l.path
  return (entries, l.renewed)

/-- Moves the entries into a new scratch file, unless there are none. -/
def takeInto (l : BulkList) (dir : Path) : TryDisk (Option ScratchFile × BulkList) := do
  let target ← ScratchFile.createIn dir
  target.orRelease do
    let entries ← Bulk.readEntries l.path
    if entries.isEmpty then
      target.release
      return (none, l)
    let _ ← target.append entries
    Volume.clear l.path
    return (some target, l.renewed)

/-- Makes the list empty. -/
def clear (l : BulkList) : TryDisk BulkList := do
  Volume.clear l.path
  return l.renewed

/-! ### Operations that take a failure for nothing -/

/-- What an operation does, or nothing if it fails. -/
def orNothing (l : BulkList) (act : TryDisk (Nat × BulkList)) : Disk (Nat × BulkList) := do
  match ← act.run with
  | .ok r => return r
  | .error _ => return (0, l)

/-- The entries below a key, or all of them. -/
def get (l : BulkList) (below : Option Key) : Disk (List Entry) := do
  match ← (l.tryGet below).run with
  | .ok entries => return entries
  | .error _ => return []

/-- Adds entries at the end; the number of those that could be written. -/
def add (l : BulkList) (entries : List Entry) : Disk (Nat × BulkList) :=
  l.orNothing (l.tryAdd entries)

/-- Removes the entries that have the identifier of one of the given ones; their number. -/
def remove (l : BulkList) (removed : List Entry) : Disk (Nat × BulkList) :=
  l.orNothing (l.tryRemove removed)

/-- Replaces every entry by the last given one with its identifier; the number of entries
replaced. -/
def update (l : BulkList) (updates : List Entry) : Disk (Nat × BulkList) :=
  l.orNothing (l.tryUpdate updates)

/-- The number of entries in the file. -/
def scanCount (l : BulkList) : Disk Nat := do
  match ← (Bulk.countEntries l.path).run with
  | .ok n => return n
  | .error _ => return 0

/-- The number of entries, counted once per signature. -/
def count (l : BulkList) : Disk (Nat × BulkList) := do
  let (n, counted) ← l.counted.fetch l.signature l.scanCount
  return (n, { l with counted })

/-- Whether there are no entries, by the count. -/
def isEmpty (l : BulkList) : Disk (Bool × BulkList) := do
  let (n, l) ← l.count
  return (n == 0, l)

end BulkList

/-! ### Transfers -/

/-- A bulk list on a scratch file of its own, in which a transfer is put together. -/
structure Transfer where
  /-- The list of entries. -/
  list : BulkList
  /-- The file that has it. -/
  file : ScratchFile

namespace Transfer

/-- An empty transfer. -/
def createIn (dir : Path) : TryDisk Transfer := do
  let file ← ScratchFile.createIn dir
  file.orRelease do
    let list ← BulkList.openAt file.path
    return ⟨list, file⟩

/-- Adds entries to the transfer; the number of those that could be written. -/
def stage (t : Transfer) (entries : List Entry) : TryDisk (Nat × Transfer) := do
  let (n, list) ← t.list.tryAdd entries
  return (n, { t with list })

end Transfer

end TrieOverlay
