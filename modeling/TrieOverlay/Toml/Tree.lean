import TrieOverlay.Toml.Basic

/-!
# How the tables of a document grow

A document builds its tables bit by bit, from headers (`[a.b]`), from headers of list elements
(`[[a.b]]`) and from pairs whose keys may have several parts (`a.b = 1`).  No name is defined twice,
and what may be added to a table later depends on how it came to be (`TableKind`):

* a table that a header opened is opened once, and pairs with longer keys do not reach into it;
* a table that a header only passed through may still be opened;
* a table that the parts of a key made grows by such keys, and is not opened;
* a value, an inline table among them, is complete.

`addPair?`, `openTable?` and `openElement?` are the three ways to grow; `Members.toToml` gives the
value that was built.
-/

namespace TrieOverlay.Toml

/-- How a table came to be. -/
inductive TableKind where
  /-- A header opened it. -/
  | opened
  /-- A header passed through it. -/
  | passed
  /-- The parts of a key made it. -/
  | dotted
deriving DecidableEq, Repr

/-- What a name stands for in a table that may still grow. -/
inductive Growing where
  /-- A complete value. -/
  | value (v : Toml)
  /-- A table. -/
  | table (kind : TableKind) (members : List (String × Growing))
  /-- A list of tables; the last one may grow. -/
  | elements (tables : List (List (String × Growing)))

/-- The members of a table that may still grow, in the order of their definition. -/
abbrev Members := List (String × Growing)

namespace Members

/-- The members with another meaning for a name. -/
def set (ms : Members) (name : String) (g : Growing) : Members :=
  ms.map fun (n, old) => (n, if n = name then g else old)

/-- The members with a new name, unless it is taken. -/
def define? (ms : Members) (name : String) (g : Growing) : Option Members :=
  match ms.lookup name with
  | some _ => none
  | none => some (ms ++ [(name, g)])

/-- The kind of table that a path makes where there is none. -/
def kindMade (byKey : Bool) : TableKind :=
  if byKey then .dotted else .passed

/-- Grows the table at the end of a path, which is that of a key (`byKey`) or of a header.  Tables
that are missing are made; `grow` gets the kind and the members of the table at the end. -/
def growAt? (byKey : Bool) (grow : TableKind → Members → Option Members) :
    (path : List String) → TableKind → Members → Option Members
  | [], kind, ms => grow kind ms
  | name :: path, _, ms =>
    match ms.lookup name with
    | none => do
      let inner ← growAt? byKey grow path (kindMade byKey) []
      return ms ++ [(name, .table (kindMade byKey) inner)]
    | some (.value _) => none
    | some (.table kind inner) =>
      if byKey && kind == .opened then none
      else do
        let inner ← growAt? byKey grow path kind inner
        return ms.set name (.table kind inner)
    | some (.elements tables) => do
      let last ← tables.getLast?
      let last ← growAt? byKey grow path .opened last
      return ms.set name (.elements (tables.dropLast ++ [last]))

/-- Adds a value under a key that has the parts `path` and a last part `name`. -/
def addPair? (path : List String) (name : String) (v : Toml) (ms : Members) : Option Members :=
  growAt? true (fun kind inner =>
    if (kind == .dotted) = path.isEmpty then none else inner.define? name (.value v))
    path .opened ms

/-- Opens the table of a header. -/
def openTable? (path : List String) (name : String) (ms : Members) : Option Members :=
  growAt? false (fun _ inner =>
    match inner.lookup name with
    | none => some (inner ++ [(name, .table .opened [])])
    | some (.table .passed members) => some (inner.set name (.table .opened members))
    | some _ => none) path .opened ms

/-- Adds an element to the list of a header. -/
def openElement? (path : List String) (name : String) (ms : Members) : Option Members :=
  growAt? false (fun _ inner =>
    match inner.lookup name with
    | none => some (inner ++ [(name, .elements [[]])])
    | some (.elements tables) => some (inner.set name (.elements (tables ++ [[]])))
    | some _ => none) path .opened ms

/-- Adds a value to the table that the last header opened. -/
def addUnder? (header path : List String) (name : String) (v : Toml) (ms : Members) :
    Option Members :=
  growAt? false (fun _ inner => inner.addPair? path name v) header .opened ms

/-- The members that some pairs define. -/
def ofPairs? (pairs : List ((List String × String) × Toml)) : Option Members :=
  pairs.foldlM (fun ms pair => ms.addPair? pair.1.1 pair.1.2 pair.2) []

end Members

mutual

/-- What was built under a name. -/
def Growing.toToml : Growing → Toml
  | .value v => v
  | .table _ members => .table (membersToToml members)
  | .elements tables => .array (elementsToToml tables)

/-- The values of the members of a table. -/
def membersToToml : List (String × Growing) → List (String × Toml)
  | [] => []
  | (name, g) :: rest => (name, g.toToml) :: membersToToml rest

/-- The values of the elements of a list. -/
def elementsToToml : List (List (String × Growing)) → List Toml
  | [] => []
  | members :: rest => .table (membersToToml members) :: elementsToToml rest

end

/-- The table that was built. -/
def Members.toToml (ms : Members) : Toml :=
  .table (membersToToml ms)

end TrieOverlay.Toml
