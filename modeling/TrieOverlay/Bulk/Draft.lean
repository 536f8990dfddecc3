import TrieOverlay.Bulk.ScratchFile

/-!
# Drafts

A draft says what a bulk file is to hold: entries, then lines as they come from somewhere else, then
bytes as they are.  Each of the three may be missing; a file of which all are missing is not made.
-/

namespace TrieOverlay.Bulk

/-- What a bulk file is to hold. -/
structure Draft where
  /-- The entries. -/
  entries : Option (List Entry)
  /-- The lines after them. -/
  lines : Option (List String)
  /-- The bytes after these. -/
  bytes : Option Bytes
deriving DecidableEq, Repr

namespace Draft

/-- Adds what a draft says at the end of a file. -/
def write (d : Draft) (p : Path) : TryDisk Unit := do
  if let some entries := d.entries then
    let _ ← append p entries
  if let some lines := d.lines then
    let _ ← appendLines p lines
  if let some bytes := d.bytes then
    Volume.extend p bytes

/-- A new scratch file with what a draft says; bytes take the place of everything else. -/
def createIn (d : Draft) (dir : Path) : TryDisk ScratchFile := do
  let f ← ScratchFile.createIn dir
  f.orRelease do
    d.write f.path
    if let some bytes := d.bytes then
      Volume.clear f.path
      Volume.append f.path bytes
    return f

end Draft

end TrieOverlay.Bulk
