/-!
# JSON values

A value is null, a truth value, a number, a text, a list of values, or a record of named values.
The members of a record are kept in increasing order of their names, each name once
(`Json.record`), so two values that say the same are equal.

A number is an integer, or a decimal `mantissa * 10 ^ exponent` if it was written with a fraction
or an exponent.
-/

namespace TrieOverlay

/-- A number of a JSON text. -/
inductive Json.Number where
  /-- A number without fraction and exponent. -/
  | integer (value : Int)
  /-- The number `mantissa * 10 ^ exponent`. -/
  | decimal (mantissa : Int) (exponent : Int)
deriving DecidableEq, Repr

/-- A JSON value. -/
inductive Json where
  | null
  | bool (value : Bool)
  | number (value : Json.Number)
  | text (value : String)
  | array (items : List Json)
  | object (members : List (String × Json))
deriving Repr, Inhabited

namespace Json

/-! ### Making values -/

/-- A natural number as a value. -/
def nat (n : Nat) : Json :=
  .number (.integer n)

/-- The members with one more, in order of the names; an older member of the same name goes. -/
def insertMember (name : String) (value : Json) :
    List (String × Json) → List (String × Json)
  | [] => [(name, value)]
  | (n, v) :: rest =>
    match compare name n with
    | .lt => (name, value) :: (n, v) :: rest
    | .eq => (name, value) :: rest
    | .gt => (n, v) :: insertMember name value rest

/-- The record of some members; of several with one name the last one counts. -/
def record (members : List (String × Json)) : Json :=
  .object (members.foldl (fun ms m => insertMember m.1 m.2 ms) [])

/-- A list of texts as a value. -/
def texts (ss : List String) : Json :=
  .array (ss.map .text)

/-! ### Looking into values -/

/-- The member of a record with a name. -/
def member? (name : String) : Json → Option Json
  | .object members => members.lookup name
  | _ => none

end Json

end TrieOverlay
