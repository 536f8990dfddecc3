import TrieOverlay.Bulk.ScratchFile
import TrieOverlay.Partition

/-!
# Splitting a bulk file by level

`Bulk.splitByLevel` is `byLevel` for a batch that is a file: it makes one scratch file per level
that has entries.  The file is read once; the entries of a level are collected and written in
portions of `portionSize`, so that no level is ever held whole.  The source is gone afterwards, and
if anything fails so are the files of the levels.
-/

namespace TrieOverlay.Bulk

/-- The number of entries that are written at once. -/
def portionSize : Nat := 512

/-- A split under way. -/
structure Split where
  /-- The file of each level that has one. -/
  files : List (Option ScratchFile)
  /-- The entries of each level that are not written yet. -/
  pending : List (List Entry)
  /-- What went wrong, if something did. -/
  failure : Option StorageError

namespace Split

/-- The split into `n` levels before the first entry. -/
def start (n : Nat) : Split :=
  ⟨List.replicate n none, List.replicate n [], none⟩

/-- The files made so far. -/
def made (s : Split) : List ScratchFile :=
  s.files.filterMap id

/-- The split after a failure; the file of the level at which it failed is released. -/
def failed (s : Split) (level : Nat) (e : StorageError) : Disk Split := do
  if let some (some f) := s.files[level]? then f.release
  return { s with files := s.files.set level none, failure := some e }

/-- Writes what is pending at a level, making the file of the level at the first time. -/
def flush (s : Split) (dir : Path) (level : Nat) : Disk Split := do
  let batch := s.pending[level]?.getD []
  if batch.isEmpty then
    return s
  let opened ← match s.files[level]? with
    | some (some f) => pure (.ok f)
    | _ => (ScratchFile.createIn dir).run
  match opened with
  | .error e => s.failed level e
  | .ok file =>
    let s := { s with files := s.files.set level (some file) }
    match ← (file.append batch).run with
    | .error e => s.failed level e
    | .ok _ => return { s with pending := s.pending.set level [] }

/-- Adds an entry to its level, and writes the level when a portion is full.  After a failure
nothing is done. -/
def visit (path : Key) (dir : Path) (s : Split) (e : Entry) : Disk Split := do
  if s.failure.isSome then
    return s
  let level := path.levelOf e.key
  let batch := s.pending[level]?.getD [] ++ [e]
  let s := { s with pending := s.pending.set level batch }
  if batch.length ≥ portionSize then s.flush dir level else return s

/-- Writes what is pending at some levels, up to the first failure. -/
def flushAll (dir : Path) : List Nat → Split → Disk Split
  | [], s => return s
  | level :: rest, s => do
    let s ← s.flush dir level
    if s.failure.isSome then return s else flushAll dir rest s

end Split

/-- Splits a file by level: the file of each level that has entries, the owned ones last. -/
def splitByLevel (path : Key) (source : ScratchFile) (dir : Path) :
    TryDisk (List (Option ScratchFile)) := do
  let levels := path.length + 1
  let (s, visits) ← scan source.path (Split.visit path dir) (Split.start levels)
  source.release
  let s ← if visits.isOk && s.failure.isNone then
      Split.flushAll dir (List.range levels) s
    else pure s
  match visits, s.failure with
  | .error e, _ | .ok _, some e =>
    ScratchFile.releaseAll s.made
    throw e
  | .ok _, none => return s.files

end TrieOverlay.Bulk
