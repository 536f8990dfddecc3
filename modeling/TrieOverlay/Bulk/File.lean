import TrieOverlay.Bulk.Line
import TrieOverlay.Disk.Volume
import TrieOverlay.Text.Blank

/-!
# Bulk files

A bulk file is read line by line.  A line ends with a line feed; a carriage return directly before
it belongs to the line end, and a last line needs no line feed.  Lines that hold nothing but blanks
are skipped.  A file with a line that is not UTF-8 cannot be read.

* `readLines` gives the lines themselves, `scan` visits the entries that the lines write and skips
  lines that write none, `readEntries` collects them.
* `append` writes entries at the end, `appendLines` writes lines as they come from another peer.

A file that does not exist reads as an empty one and is created when it is written.
-/

namespace TrieOverlay.Bulk

/-! ### Lines of bytes -/

/-- The byte that ends a line. -/
def lineFeed : UInt8 := 10

/-- The byte that may stand before the one that ends a line. -/
def carriageReturn : UInt8 := 13

/-- A line that was ended, without the carriage return of its end. -/
def dropCarriageReturn (line : Bytes) : Bytes :=
  if line.getLast? = some carriageReturn then line.dropLast else line

/-- The lines of a file: those that a line feed ends, and what is left after the last of them. -/
def splitLines (bytes : Bytes) : List Bytes :=
  let pieces := bytes.splitOn lineFeed
  let last := pieces.getLastD []
  pieces.dropLast.map dropCarriageReturn ++ (if last.isEmpty then [] else [last])

/-! ### Reading -/

/-- The lines of a file that are not blank, if all of them are UTF-8. -/
def linesOf (bytes : Bytes) : Option (List String) := do
  let lines ← (splitLines bytes).mapM Utf8.decode?
  return lines.filter fun l => !Text.isBlankText l

/-- The lines of a file that are not blank. -/
def readLines (p : Path) : TryDisk (List String) := do
  match ← Volume.readIfPresent p with
  | none => return []
  | some bytes =>
    match linesOf bytes with
    | some lines => return lines
    | none => throw ⟨p, .invalidData⟩

/-- Visits the entries of some lines in order, up to a line that is not UTF-8.  The state after the
last visit, and the number of visits or why they ended early. -/
def scanLines {σ : Type} (p : Path) (visit : σ → Entry → Disk σ) :
    List Bytes → σ → (visited : Nat) → Disk (σ × Except StorageError Nat)
  | [], s, n => return (s, .ok n)
  | line :: rest, s, n =>
    match Utf8.decode? line with
    | none => return (s, .error ⟨p, .invalidData⟩)
    | some text =>
      if Text.isBlankText text then scanLines p visit rest s n
      else
        match Line.decode? text with
        | none => scanLines p visit rest s n
        | some e => do
          let s ← visit s e
          scanLines p visit rest s (n + 1)

/-- Visits the entries of a file in order.  The state after the last visit, and the number of
visits or why they ended early. -/
def scan {σ : Type} (p : Path) (visit : σ → Entry → Disk σ) (s : σ) :
    Disk (σ × Except StorageError Nat) := do
  match ← (Volume.readIfPresent p).run with
  | .error e => return (s, .error e)
  | .ok none => return (s, .ok 0)
  | .ok (some bytes) => scanLines p visit (splitLines bytes) s 0

/-- The entries of a file. -/
def readEntries (p : Path) : TryDisk (List Entry) := ExceptT.mk do
  let (found, visits) ← scan p (fun es e => pure (e :: es)) []
  return visits.map fun _ => found.reverse

/-- The number of entries of a file. -/
def countEntries (p : Path) : TryDisk Nat := ExceptT.mk do
  let ((), visits) ← scan p (fun s _ => pure s) ()
  return visits

/-! ### Writing -/

/-- The bytes of some lines, each with its line feed. -/
def bytesOfLines (lines : List String) : Bytes :=
  lines.flatMap fun l => Utf8.encode l ++ [lineFeed]

/-- Adds lines at the end of a file. -/
def writeLines (p : Path) (lines : List String) : TryDisk Unit := do
  Volume.touch p
  unless lines.isEmpty do Volume.append p (bytesOfLines lines)

/-- Adds entries at the end of a file, leaving out those that cannot be written; the number of
those written. -/
def append (p : Path) (entries : List Entry) : TryDisk Nat := do
  let lines := entries.filterMap Line.encode?
  writeLines p lines
  return lines.length

/-- Adds lines at the end of a file, each without the blanks at its end; their number. -/
def appendLines (p : Path) (lines : List String) : TryDisk Nat := do
  writeLines p (lines.map Text.trimEnd)
  return lines.length

/-- The name under which a new version of a file is written before it takes its place. -/
def stagingPath (p : Path) : Path :=
  p.withExtension "rewrite"

/-- Replaces the entries of a file: the new version is written beside it, then moved over it. -/
def overwrite (p : Path) (entries : List Entry) : TryDisk Unit := do
  let staging := stagingPath p
  Volume.removeIfPresent staging
  let _ ← append staging entries
  Volume.rename staging p

end TrieOverlay.Bulk
