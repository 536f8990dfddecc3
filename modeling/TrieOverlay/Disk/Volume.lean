import TrieOverlay.Disk.Path
import TrieOverlay.Text.Utf8

/-!
# Volumes

A volume is what the files of a peer are kept on: directories and files with their bytes.  It is a
value, and everything done to it is one of a few *calls* (`read`, `touch`, `append`, `clear`,
`remove`, `rename`, `createDirectories`, `removeTree`).  A call that fails has no effect.

Calls can also fail for reasons that the volume does not know of.  The *schedule* of a volume says
which of the next calls do; a write that is torn leaves the first bytes of what it should have
written.  An empty schedule lets every call pass.

`Disk` is a computation on a volume, `TryDisk` one that may fail.
-/

namespace TrieOverlay

/-- Why a call fails. -/
inductive IoError where
  | notFound
  | alreadyExists
  | isADirectory
  | notADirectory
  | invalidData
  /-- The schedule of the volume says so. -/
  | refused
deriving DecidableEq, Repr

/-- The name of a cause. -/
def IoError.name : IoError → String
  | notFound => "NotFound"
  | alreadyExists => "AlreadyExists"
  | isADirectory => "IsADirectory"
  | notADirectory => "NotADirectory"
  | invalidData => "InvalidData"
  | refused => "Other"

/-- A failed call: where, and why. -/
structure StorageError where
  /-- The path the call was about. -/
  path : Path
  /-- Why it failed. -/
  cause : IoError
deriving DecidableEq, Repr

/-- What a volume has at a path. -/
inductive Item where
  | directory
  | file (content : Bytes)
deriving DecidableEq, Repr

/-- What the schedule says about a call. -/
inductive Fault where
  /-- The call is made. -/
  | pass
  /-- The call fails and has no effect. -/
  | refuse
  /-- A write fails after its first bytes; any other call fails. -/
  | tear (written : Nat)
deriving DecidableEq, Repr

/-- Files and directories. -/
structure Volume where
  /-- The items by their paths; the root directory is always there and not among them. -/
  items : Std.ExtTreeMap Path Item
  /-- The number of file names made up so far. -/
  serial : Nat
  /-- What happens to the next calls. -/
  schedule : List Fault

/-- A computation on a volume. -/
abbrev Disk := StateM Volume

/-- A computation on a volume that may fail. -/
abbrev TryDisk := ExceptT StorageError Disk

namespace Volume

/-- The volume without items. -/
def empty : Volume := ⟨∅, 0, []⟩

instance : Inhabited Volume := ⟨empty⟩

/-! ### Looking -/

/-- What is at a path. -/
def item? (v : Volume) (p : Path) : Option Item :=
  if p = .root then some .directory else v.items[p]?

/-- What keeps a path from being reached: a directory on the way that is missing or is a file. -/
def obstacle? (v : Volume) (p : Path) : Option IoError :=
  p.ancestors.findSome? fun a =>
    match v.item? a with
    | some .directory => none
    | some (.file _) => some .notADirectory
    | none => some .notFound

/-- What is at a path, or why nothing is. -/
def find (v : Volume) (p : Path) : Except IoError Item :=
  match v.obstacle? p with
  | some e => .error e
  | none =>
    match v.item? p with
    | some item => .ok item
    | none => .error .notFound

/-- The bytes of a file. -/
def content (v : Volume) (p : Path) : Except IoError Bytes :=
  match v.find p with
  | .ok (.file bytes) => .ok bytes
  | .ok .directory => .error .isADirectory
  | .error e => .error e

/-- Whether something is at a path. -/
def exists? (v : Volume) (p : Path) : Bool :=
  (v.find p).toBool

/-- Whether a directory is at a path. -/
def isDirectory (v : Volume) (p : Path) : Bool :=
  match v.find p with
  | .ok .directory => true
  | _ => false

/-- The items of a directory with their names, in order of the names. -/
def list (v : Volume) (dir : Path) : List (String × Item) :=
  if v.isDirectory dir then
    v.items.toList.filterMap fun (p, item) =>
      if p.isChildOf dir then p.parts.getLast?.map (·, item) else none
  else []

/-- The names in a directory, in order; those of directories end with a slash. -/
def names (v : Volume) (dir : Path) : List String :=
  (v.list dir).map fun (name, item) => if item = .directory then name ++ "/" else name

/-! ### Changing -/

/-- The volume with something at a path. -/
def put (v : Volume) (p : Path) (item : Item) : Volume :=
  { v with items := v.items.insert p item }

/-- The volume with a file at a path. -/
def putFile (v : Volume) (p : Path) (bytes : Bytes) : Volume :=
  v.put p (.file bytes)

/-- The volume without what is at a path. -/
def drop (v : Volume) (p : Path) : Volume :=
  { v with items := v.items.erase p }

/-- The volume in which a path may be written: it can be reached and is no directory.  The second
part is the bytes that are there. -/
def writable (v : Volume) (p : Path) : Except IoError (Option Bytes) :=
  match v.content p with
  | .ok bytes => .ok (some bytes)
  | .error .notFound =>
    match v.obstacle? p with
    | some e => .error e
    | none => .ok none
  | .error e => .error e

/-- The bytes of a file. -/
def readCall (p : Path) (v : Volume) : Except IoError (Bytes × Volume) :=
  (v.content p).map (·, v)

/-- Makes sure that there is a file. -/
def touchCall (p : Path) (v : Volume) : Except IoError (Unit × Volume) :=
  match v.writable p with
  | .ok (some _) => .ok ((), v)
  | .ok none => .ok ((), v.putFile p [])
  | .error e => .error e

/-- Adds bytes at the end of a file. -/
def appendCall (p : Path) (bytes : Bytes) (v : Volume) : Except IoError (Unit × Volume) :=
  match v.content p with
  | .ok old => .ok ((), v.putFile p (old ++ bytes))
  | .error e => .error e

/-- Makes sure that there is a file, and that it is empty. -/
def clearCall (p : Path) (v : Volume) : Except IoError (Unit × Volume) :=
  match v.writable p with
  | .ok _ => .ok ((), v.putFile p [])
  | .error e => .error e

/-- Removes a file. -/
def removeCall (p : Path) (v : Volume) : Except IoError (Unit × Volume) :=
  match v.content p with
  | .ok _ => .ok ((), v.drop p)
  | .error e => .error e

/-- Moves a file over another. -/
def renameCall (src dst : Path) (v : Volume) : Except IoError (Unit × Volume) :=
  match v.content src, v.writable dst with
  | .ok bytes, .ok _ => .ok ((), (v.drop src).putFile dst bytes)
  | .error e, _ => .error e
  | _, .error e => .error e

/-- Makes sure that there is a directory, and those on the way to it. -/
def createDirectoriesCall (p : Path) (v : Volume) : Except IoError (Unit × Volume) :=
  match v.find p with
  | .ok .directory => .ok ((), v)
  | .ok (.file _) => .error .alreadyExists
  | .error .notFound =>
    .ok ((), (p.ancestors ++ [p]).foldl
      (fun v a => if (v.item? a).isSome then v else v.put a .directory) v)
  | .error e => .error e

/-- Removes a directory and everything below it. -/
def removeTreeCall (p : Path) (v : Volume) : Except IoError (Unit × Volume) :=
  match v.find p with
  | .ok .directory => .ok ((), { v with items := v.items.filter fun q _ => !q.isWithin p })
  | .ok (.file _) => .error .notADirectory
  | .error e => .error e

/-! ### Calls -/

/-- What happens to the next call, and the volume after asking. -/
def nextFault (v : Volume) : Fault × Volume :=
  match v.schedule with
  | [] => (.pass, v)
  | f :: fs => (f, { v with schedule := fs })

/-- A call about a path, unless the schedule has it fail. -/
def call {α : Type} (p : Path) (act : Volume → Except IoError (α × Volume)) : TryDisk α :=
  ExceptT.mk fun v =>
    match v.nextFault with
    | (.pass, v) =>
      match act v with
      | .ok (a, v') => (.ok a, v')
      | .error e => (.error ⟨p, e⟩, v)
    | (_, v) => (.error ⟨p, .refused⟩, v)

/-- The bytes of a file. -/
def read (p : Path) : TryDisk Bytes :=
  call p (readCall p)

/-- Makes sure that there is a file. -/
def touch (p : Path) : TryDisk Unit :=
  call p (touchCall p)

/-- Adds bytes at the end of a file.  A torn write adds the first of them. -/
def append (p : Path) (bytes : Bytes) : TryDisk Unit :=
  ExceptT.mk fun v =>
    match v.nextFault with
    | (.tear n, v) =>
      match appendCall p (bytes.take n) v with
      | .ok (_, v') => (.error ⟨p, .refused⟩, v')
      | .error _ => (.error ⟨p, .refused⟩, v)
    | _ => (call p (appendCall p bytes)).run v

/-- Makes sure that there is a file, and that it is empty. -/
def clear (p : Path) : TryDisk Unit :=
  call p (clearCall p)

/-- Removes a file. -/
def remove (p : Path) : TryDisk Unit :=
  call p (removeCall p)

/-- Moves a file over another. -/
def rename (src dst : Path) : TryDisk Unit :=
  call dst (renameCall src dst)

/-- Makes sure that there is a directory, and those on the way to it. -/
def createDirectories (p : Path) : TryDisk Unit :=
  call p (createDirectoriesCall p)

/-- Removes a directory and everything below it. -/
def removeTree (p : Path) : TryDisk Unit :=
  call p (removeTreeCall p)

/-! ### Calls that do not mind what is there -/

/-- The bytes of a file, or nothing if there is no such file. -/
def readIfPresent (p : Path) : TryDisk (Option Bytes) :=
  tryCatch (some <$> read p) fun e =>
    if e.cause = .notFound then pure none else throw e

/-- Removes a file if there is one. -/
def removeIfPresent (p : Path) : TryDisk Unit :=
  tryCatch (remove p) fun e =>
    if e.cause = .notFound then pure () else throw e

/-- Adds bytes at the end of a file, which is created if need be. -/
def extend (p : Path) (bytes : Bytes) : TryDisk Unit := do
  touch p
  append p bytes

/-- Removes a file if there is one.  This call is not in the schedule, and that it fails for
another reason is nobody's business. -/
def discard (p : Path) : Disk Unit :=
  modify fun v =>
    match removeCall p v with
    | .ok (_, v') => v'
    | .error _ => v

/-- A number that was not handed out before. -/
def nextSerial : Disk Nat :=
  modifyGet fun v => (v.serial, { v with serial := v.serial + 1 })

end Volume

end TrieOverlay
