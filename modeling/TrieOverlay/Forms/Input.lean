import TrieOverlay.Disk.Path
import TrieOverlay.Forms.Entry
import TrieOverlay.Text.Hex

/-!
# Typed fields

The fields of a command, which is a JSON record, are read by their types (`Json.field`).  A field
that is missing or says null is absent: an optional field is then `none`, one with a default has its
default, and any other is an error.  An `InputError` says which field it was, or what is wrong with
the key or the code that it holds.

In a command an entry is written as the list of its six texts, a peer as the list of its identifier,
address and path, and bytes in hexadecimal.
-/

namespace TrieOverlay

/-- Why a field cannot be read. -/
inductive InputError where
  /-- It is absent or holds something else. -/
  | field (name : String)
  /-- Its text is no key. -/
  | key (cause : InvalidKey)
  /-- No operation has its code. -/
  | operation (code : Nat)
deriving DecidableEq, Repr

/-- Types that a field can have. -/
class Readable (α : Type) where
  /-- The value of a field with a name; there is no content if the field is absent. -/
  read : (name : String) → Option Json → Except InputError α

namespace Json

/-- The content of a field, unless it is absent. -/
def present? (j : Json) (name : String) : Option Json :=
  match j.member? name with
  | some .null => none
  | found => found

/-- A field of a record. -/
def field {α : Type} [Readable α] (j : Json) (name : String) : Except InputError α :=
  Readable.read name (j.present? name)

/-- A field of a record, or a default if it is absent. -/
def fieldOr {α : Type} [Readable α] (j : Json) (name : String) (default : α) :
    Except InputError α :=
  match j.present? name with
  | none => .ok default
  | content => Readable.read name content

/-- A field that says one of some words. -/
def wordField {α : Type} (j : Json) (name : String) (words : List (String × α)) :
    Except InputError α :=
  match j.present? name with
  | some (.text s) =>
    match words.lookup s with
    | some a => .ok a
    | none => .error (.field name)
  | _ => .error (.field name)

end Json

namespace Readable

/-- What was read, or the error of a field. -/
def orField {α : Type} (name : String) : Option α → Except InputError α
  | some a => .ok a
  | none => .error (.field name)

instance : Readable Json where
  read := orField

instance {α : Type} [Readable α] : Readable (Option α) where
  read name
    | none => .ok none
    | content => some <$> read name content

instance : Readable String where
  read
    | _, some (.text s) => .ok s
    | name, _ => .error (.field name)

instance : Readable Nat where
  read name content := orField name (content.bind fun j => j.toWritten.count?)

instance : Readable Bool where
  read
    | _, some (.bool b) => .ok b
    | name, _ => .error (.field name)

instance {α : Type} [Readable α] : Readable (List α) where
  read
    | name, some (.array items) => items.mapM fun item => read name (some item)
    | name, _ => .error (.field name)

instance {kind : IdentKind} : Readable (Ident kind) where
  read name content := Ident.mk <$> read name content

instance : Readable Key where
  read name content := do
    match Key.ofString (← read name content) with
    | .ok k => return k
    | .error e => .error (.key e)

instance : Readable Operation where
  read name content := do
    let code ← read name content
    if code > 255 then .error (.field name)
    match Operation.ofCode? code with
    | some o => return o
    | none => .error (.operation code)

instance : Readable Entry where
  read
    | name, some (.array
        [.text id, key, .text type, .text peer, .text address, .text payload]) => do
      return ⟨⟨id⟩, ← read name (some key), type, ⟨⟨peer⟩, address⟩, payload⟩
    | name, _ => .error (.field name)

instance : Readable Neighbour where
  read
    | name, some (.array [.text id, .text address, path]) => do
      return ⟨⟨⟨id⟩, address⟩, ← read name (some path)⟩
    | name, _ => .error (.field name)

instance (priority := high) : Readable (List UInt8) where
  read name content := do
    let digits : String ← read name content
    orField name (Hex.bytes? digits.toList)

/-- A path of a command is below the root. -/
instance : Readable Path where
  read name content := do return Path.root.join (Path.ofString (← read name content))

end Readable

end TrieOverlay
