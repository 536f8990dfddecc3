import TrieOverlay.Ident

/-!
# Naming

Identifiers that are made up differ from run to run.  A `Naming` gives the identifiers that it
learns numbers from 1 on, in the order in which it learns them, so that what is told of them is the
same in every run: `label` writes the number of an identifier after a mark, and `ofLabel` goes back.
An identifier that was not learned is its own label.
-/

namespace TrieOverlay

/-- The identifiers that have a number. -/
structure Naming (kind : IdentKind) where
  /-- A mark in front of a number. -/
  mark : Char
  /-- The least number of digits. -/
  digits : Nat
  /-- The identifiers in order of their numbers. -/
  ids : List (Ident kind)
deriving DecidableEq, Repr

namespace Naming

variable {kind : IdentKind}

/-- The naming with one more identifier. -/
def learn (n : Naming kind) (id : Ident kind) : Naming kind :=
  if n.ids.contains id then n else { n with ids := n.ids ++ [id] }

/-- The label of a number. -/
def labelOf (n : Naming kind) (number : Nat) : String :=
  let ds := Nat.toDigits 10 number
  String.ofList (n.mark :: List.replicate (n.digits - ds.length) '0' ++ ds)

/-- The label of an identifier. -/
def label (n : Naming kind) (id : Ident kind) : String :=
  match n.ids.idxOf? id with
  | some i => n.labelOf (i + 1)
  | none => id.text

/-- The identifier that has a label. -/
def ofLabel (n : Naming kind) (label : Ident kind) : Ident kind :=
  (n.ids.find? fun id => n.label id = label.text).getD label

end Naming

end TrieOverlay
