import TrieOverlay.Json.Written

/-!
# Reading typed values

The readers of this module take a `Written` tree apart.  A record may be written as an object or
as the list of its fields in their declared order (`Written.fields?`): in an object unknown names
are skipped and a known name may occur once; in a list the last fields may be missing and nothing
may follow them.  A field that is missing is `none`, and each type decides whether it can do
without; a field that says null is not missing.
-/

namespace TrieOverlay.Json.Written

/-- The content of a text. -/
def text? : Written → Option String
  | .text s => s
  | _ => none

/-- A truth value. -/
def bool? : Written → Option Bool
  | .bool b => some b
  | _ => none

/-- A natural number up to `limit`, written without fraction and exponent. -/
def natUpTo? (limit : Nat) : Written → Option Nat
  | .number (.integer n) => if 0 ≤ n ∧ n ≤ limit then some n.toNat else none
  | _ => none

/-- The largest number of 64 bits. -/
def maxCount : Nat := UInt64.size - 1

/-- A count of things. -/
def count? : Written → Option Nat :=
  natUpTo? maxCount

/-- The items of a list, each read by `read`. -/
def listOf? {α : Type} (read : Written → Option α) : Written → Option (List α)
  | .array items => items.mapM read
  | _ => none

/-- The values that a member list has for a name. -/
def valuesOf (name : String) (members : List (Option String × Written)) : List Written :=
  members.filterMap fun m => if m.1 = some name then some m.2 else none

/-- The fields of a record in their declared order, `none` where one is missing. -/
def fields? (names : List String) : Written → Option (List (Option Written))
  | .object members => do
    guard (members.all (·.1.isSome))
    names.mapM fun name =>
      match valuesOf name members with
      | [] => some none
      | [w] => some (some w)
      | _ => none
  | .array items => do
    guard (items.length ≤ names.length)
    return items.map some ++ List.replicate (names.length - items.length) none
  | _ => none

/-- A field that may be missing. -/
def orElse? {α : Type} (read : Written → Option α) (default : α) : Option Written → Option α
  | none => some default
  | some w => read w

/-- A field that must be there. -/
def required? {α : Type} (read : Written → Option α) : Option Written → Option α
  | none => none
  | some w => read w

end TrieOverlay.Json.Written
