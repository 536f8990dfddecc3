/-!
# TOML values

A TOML document is a table of named values.  A value is a text, a whole number, a truth value, a
list, a table, or one of two kinds that keep the text that was written: a number with a fraction or
an exponent, and a date or a time of day.
-/

namespace TrieOverlay

/-- A TOML value. -/
inductive Toml where
  | text (content : String)
  | integer (value : Int)
  | float (written : String)
  | moment (written : String)
  | bool (value : Bool)
  | array (items : List Toml)
  | table (members : List (String × Toml))
deriving Repr, Inhabited

namespace Toml

/-- The member of a table with a name. -/
def member? (name : String) : Toml → Option Toml
  | table members => members.lookup name
  | _ => none

/-- The content of a text. -/
def text? : Toml → Option String
  | text s => some s
  | _ => none

/-- A whole number that is not negative. -/
def nat? : Toml → Option Nat
  | integer n => if 0 ≤ n then some n.toNat else none
  | _ => none

/-- A truth value. -/
def bool? : Toml → Option Bool
  | bool b => some b
  | _ => none

/-- The items of a list, each read by `read`. -/
def listOf? {α : Type} (read : Toml → Option α) : Toml → Option (List α)
  | array items => items.mapM read
  | _ => none

end Toml

end TrieOverlay
