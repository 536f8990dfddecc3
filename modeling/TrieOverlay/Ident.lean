import Std.Data.ExtTreeMap

/-!
# Identifiers

Entries, peers, requests and messages are named by text that is unique by construction.
`Ident kind` is such a name; the kind keeps the four name spaces apart.  New names are made from
*serials*, natural numbers that a supply hands out once each: `Serial.hyphenated` writes one as
36 characters, `Serial.compact` as 32.
-/

namespace TrieOverlay

/-! ### Serials as text -/

namespace Serial

/-- The lower-case hexadecimal digits of a serial, at least 32 of them. -/
def digits (n : Nat) : List Char :=
  let ds := Nat.toDigits 16 n
  List.replicate (32 - ds.length) '0' ++ ds

/-- A serial as 32 hexadecimal digits. -/
def compact (n : Nat) : String :=
  String.ofList (digits n)

/-- A serial as groups of 8, 4, 4, 4 and 12 hexadecimal digits, joined by hyphens. -/
def hyphenated (n : Nat) : String :=
  let ds := digits n
  let group (start len : Nat) := (ds.drop start).take len
  String.ofList <| ['-'].intercalate
    [group 0 8, group 8 4, group 12 4, group 16 4, ds.drop 20]

end Serial

/-! ### Names -/

/-- What an identifier names. -/
inductive IdentKind where
  | entry
  | peer
  | request
  | message
deriving DecidableEq, Repr

/-- A name for one thing of a kind. -/
structure Ident (kind : IdentKind) where
  /-- The text of the name, as it is stored and sent. -/
  text : String
deriving DecidableEq, Repr, Inhabited

/-- The name of an index entry, given once when the entry is created. -/
abbrev EntryId := Ident .entry

/-- The name of a peer. -/
abbrev PeerId := Ident .peer

/-- The name of a request for distribution. -/
abbrev RequestId := Ident .request

/-- The name of a message between peers. -/
abbrev MessageId := Ident .message

namespace Ident

variable {kind : IdentKind}

/-- The name made from a serial. -/
def ofSerial (n : Nat) : Ident kind :=
  ⟨Serial.hyphenated n⟩

/-- Names are ordered by their text. -/
instance : Ord (Ident kind) :=
  ⟨compareOn Ident.text⟩

instance : Std.TransOrd (Ident kind) :=
  inferInstanceAs (Std.TransCmp (compareOn Ident.text))

instance : Std.LawfulEqOrd (Ident kind) where
  eq_of_compare {a b} h := by
    cases a; cases b
    exact congrArg Ident.mk (Std.LawfulEqOrd.eq_of_compare h)

end Ident

end TrieOverlay
