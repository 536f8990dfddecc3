import TrieOverlay.Entry
import TrieOverlay.Text.Base64

/-!
# Bulk lines

A bulk file has one entry per line, five fields separated by commas:

    KEY,ID,ENTRY_ID,HOST_ADDRESS,HOST_ID

The second field has the type and the payload, each in Base64, separated by a colon; so these two
may hold any text.  The other fields are written as they are, and an entry in which one of them
holds a comma or a line end cannot be written.
-/

namespace TrieOverlay.Bulk.Line

/-- Whether a character would break a field. -/
def isSeparator (c : Char) : Bool :=
  c = ',' || c = '\n' || c = '\r'

/-- The field that has the type and the payload. -/
def itemField (e : Entry) : List Char :=
  Base64.encodeText e.typeName ++ ':' :: Base64.encodeText e.payload

/-- The fields of an entry. -/
def fields (e : Entry) : List (List Char) :=
  [e.key.toString.toList, itemField e, e.id.text.toList, e.peer.address.toList,
    e.peer.id.text.toList]

/-- Whether an entry can be written. -/
def isEncodable (e : Entry) : Bool :=
  (fields e).all fun f => !f.any isSeparator

/-- An entry as a line, without the line end. -/
def encode? (e : Entry) : Option String :=
  if isEncodable e then some (String.ofList ([','].intercalate (fields e))) else none

/-- The type and the payload of a field that has both. -/
def decodeItem? (field : List Char) : Option (String × String) :=
  match field.span (· ≠ ':') with
  | (type, ':' :: payload) => do
    return (← Base64.decodeText? type, ← Base64.decodeText? payload)
  | _ => none

/-- The entry of a line. -/
def decode? (line : String) : Option Entry :=
  match line.toList.splitOn ',' with
  | [key, item, id, address, peer] => do
    let key ← Key.ofString? (String.ofList key)
    let (typeName, payload) ← decodeItem? item
    return {
      id := ⟨String.ofList id⟩
      key
      typeName
      peer := ⟨⟨String.ofList peer⟩, String.ofList address⟩
      payload }
  | _ => none

end TrieOverlay.Bulk.Line
