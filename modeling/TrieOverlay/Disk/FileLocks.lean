import TrieOverlay.Disk.Path

/-!
# File locks

Several lists may stand for one file, so readers and writers of a path are kept apart by locks on
paths: any number of readers, or one writer.

Giving a lock back takes two steps, and others may act between them: `surrender` counts the holder
out, `prune` forgets a path that nobody holds.
-/

namespace TrieOverlay

/-- What a lock is for. -/
inductive FileAccess where
  | read
  | write
deriving DecidableEq, Repr

/-- Who holds a path. -/
structure LockState where
  /-- The number of readers. -/
  readers : Nat
  /-- Whether a writer holds it. -/
  writer : Bool
deriving DecidableEq, Repr, Inhabited

namespace LockState

/-- Nobody. -/
def nobody : LockState := ⟨0, false⟩

/-- Whether nobody holds the path. -/
def isIdle (h : LockState) : Bool :=
  !h.writer && h.readers == 0

/-- The holders with one more, if that one is compatible with them. -/
def admit? (h : LockState) : FileAccess → Option LockState
  | .read => if h.writer then none else some { h with readers := h.readers + 1 }
  | .write => if h.isIdle then some { h with writer := true } else none

/-- The holders with one less. -/
def release (h : LockState) : FileAccess → LockState
  | .read => { h with readers := h.readers - 1 }
  | .write => { h with writer := false }

end LockState

/-- The holders of every path that somebody holds. -/
structure FileLocks where
  /-- The records by path. -/
  held : Std.ExtTreeMap Path LockState

namespace FileLocks

/-- No path is held. -/
def empty : FileLocks := ⟨∅⟩

instance : Inhabited FileLocks := ⟨empty⟩

/-- Who holds a path. -/
def stateOf (l : FileLocks) (p : Path) : LockState :=
  l.held[p]?.getD .nobody

/-- Takes a lock if that is possible now; whether it was, and the locks after. -/
def tryAcquire (l : FileLocks) (p : Path) (access : FileAccess) : Bool × FileLocks :=
  match (l.stateOf p).admit? access with
  | some h => (true, ⟨l.held.insert p h⟩)
  | none => (false, l)

/-- Whether somebody holds a path. -/
def isLocked (l : FileLocks) (p : Path) : Bool :=
  !(l.stateOf p).isIdle

/-- The first step of giving a lock back: the holder is counted out. -/
def surrender (l : FileLocks) (p : Path) (access : FileAccess) : FileLocks :=
  match l.held[p]? with
  | some h => ⟨l.held.insert p (h.release access)⟩
  | none => l

/-- The second step of giving a lock back: a path that nobody holds is forgotten. -/
def prune (l : FileLocks) (p : Path) : FileLocks :=
  match l.held[p]? with
  | some h => if h.isIdle then ⟨l.held.erase p⟩ else l
  | none => l

/-- Gives a lock back. -/
def release (l : FileLocks) (p : Path) (access : FileAccess) : FileLocks :=
  (l.surrender p access).prune p

end FileLocks

/-- A lock that is held. -/
structure FileGuard where
  /-- The path. -/
  path : Path
  /-- What it is held for. -/
  access : FileAccess
deriving DecidableEq, Repr

/-- Locks, some of which are held under a name. -/
structure FileGuards where
  /-- The locks. -/
  locks : FileLocks
  /-- The guards by their names. -/
  named : List (String × FileGuard)

namespace FileGuards

/-- No path is held. -/
def empty : FileGuards := ⟨.empty, []⟩

/-- Takes a lock if that is possible now, and never gives it back; whether it was. -/
def take (s : FileGuards) (g : FileGuard) : Bool × FileGuards :=
  let (granted, locks) := s.locks.tryAcquire g.path g.access
  (granted, { s with locks })

/-- Gives the lock of a name back; whether there was one. -/
def release (s : FileGuards) (name : String) : Bool × FileGuards :=
  match s.named.lookup name with
  | none => (false, s)
  | some g =>
    (true, ⟨s.locks.release g.path g.access, s.named.filter (·.1 ≠ name)⟩)

/-- Takes a lock under a name if that is possible now, and then gives back the one that the name
had; whether it was possible. -/
def acquire (s : FileGuards) (name : String) (g : FileGuard) : Bool × FileGuards :=
  match s.take g with
  | (false, s) => (false, s)
  | (true, s) =>
    let (_, s) := s.release name
    (true, { s with named := (name, g) :: s.named })

/-- Whether a lock could be taken now. -/
def admits (s : FileGuards) (g : FileGuard) : Bool :=
  (s.take g).1

end FileGuards

end TrieOverlay
