import TrieOverlay.Bulk.File

/-!
# Scratch files

Payloads that travel as files, and the parts that such a file is split into, live for as long as
somebody needs them.  A `ScratchFile` has exactly one holder, who releases it at the end: the
file goes away, a directory in its place stays.
-/

namespace TrieOverlay

/-- A bulk file that goes away with its holder. -/
structure ScratchFile where
  /-- Where the file is. -/
  path : Path
deriving DecidableEq, Repr

namespace ScratchFile

/-- The file name made from a serial. -/
def nameOf (serial : Nat) : String :=
  Serial.compact serial ++ ".csv"

/-- Whether a file name has the form of those made from serials. -/
def isName (name : String) : Bool :=
  let cs := name.toList
  cs.drop 32 == ".csv".toList &&
    (cs.take 32).all fun c => ('0' ≤ c && c ≤ '9') || ('a' ≤ c && c ≤ 'f')

/-- A new empty file in a directory, which is created if need be. -/
def createIn (dir : Path) : TryDisk ScratchFile := do
  Volume.createDirectories dir
  let n ← Volume.nextSerial
  let path := dir.child (nameOf n)
  Volume.clear path
  return ⟨path⟩

/-- The end of a file. -/
def release (f : ScratchFile) : Disk Unit :=
  Volume.discard f.path

/-- The end of some files. -/
def releaseAll (fs : List ScratchFile) : Disk Unit :=
  fs.forM release

/-- Uses a file, and releases it if that fails. -/
def orRelease {α : Type} (f : ScratchFile) (act : TryDisk α) : TryDisk α :=
  tryCatch act fun e => do
    f.release
    throw e

/-- Adds entries; the number of those that could be written. -/
def append (f : ScratchFile) (entries : List Entry) : TryDisk Nat :=
  Bulk.append f.path entries

/-- Adds lines; their number. -/
def appendLines (f : ScratchFile) (lines : List String) : TryDisk Nat :=
  Bulk.appendLines f.path lines

/-- The entries. -/
def entries (f : ScratchFile) : TryDisk (List Entry) :=
  Bulk.readEntries f.path

/-- The lines. -/
def lines (f : ScratchFile) : TryDisk (List String) :=
  Bulk.readLines f.path

/-- A new file in a directory that holds some lines; if they cannot be written there is none. -/
def ofLines (dir : Path) (lines : List String) : TryDisk ScratchFile := do
  let f ← createIn dir
  f.orRelease do
    let _ ← f.appendLines lines
    return f

end ScratchFile

end TrieOverlay
