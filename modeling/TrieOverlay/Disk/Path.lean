import Std.Data.ExtTreeMap

/-!
# Paths

A path is the list of names that lead to a file or a directory.  In text the names are separated
by slashes; empty names and names that say "here" do not count, except that a path may start at
the top (`/`) or say so explicitly (`.`).
-/

namespace TrieOverlay

/-- The way to a file or a directory. -/
structure Path where
  /-- The names on the way. -/
  parts : List String
deriving DecidableEq, Repr, Inhabited

namespace Path

instance : Ord Path :=
  ⟨compareOn Path.parts⟩

instance : Std.TransOrd Path :=
  inferInstanceAs (Std.TransCmp (compareOn Path.parts))

instance : Std.LawfulEqOrd Path where
  eq_of_compare {a b} h := by
    cases a; cases b
    exact congrArg Path.mk (Std.LawfulEqOrd.eq_of_compare h)

/-- The directory that holds everything. -/
def root : Path := ⟨[]⟩

/-- The path that a text writes. -/
def ofString (s : String) : Path :=
  match s.splitOn "/" with
  | [] => root
  | first :: rest =>
    let start := if first = "" then (if rest = [] then [] else ["/"]) else [first]
    ⟨start ++ rest.filter fun p => p ≠ "" ∧ p ≠ "."⟩

/-- A path below a directory. -/
def join (dir path : Path) : Path :=
  ⟨dir.parts ++ path.parts.filter (· ≠ ".")⟩

/-- The path of a name in a directory. -/
def child (dir : Path) (name : String) : Path :=
  ⟨dir.parts ++ [name]⟩

/-- The directory that holds a path. -/
def parent? (p : Path) : Option Path :=
  if p.parts.isEmpty then none else some ⟨p.parts.dropLast⟩

/-- The directories on the way to a path, from the root on. -/
def ancestors (p : Path) : List Path :=
  (List.range p.parts.length).map fun n => ⟨p.parts.take n⟩

/-- Whether a path is in a directory, not deeper. -/
def isChildOf (p dir : Path) : Bool :=
  p.parent? == some dir

/-- Whether a path is a directory or below it. -/
def isWithin (p dir : Path) : Bool :=
  dir.parts.isPrefixOf p.parts

/-- A file name without its extension: the part before the last point, unless that is empty. -/
def stemOf (name : String) : String :=
  let cs := name.toList.reverse
  match cs.span (· ≠ '.') with
  | (_, '.' :: c :: before) => String.ofList (c :: before).reverse
  | _ => name

/-- The path whose file name has another extension. -/
def withExtension (p : Path) (extension : String) : Path :=
  match p.parts.getLast? with
  | none => p
  | some name =>
    if name = ".." then p else ⟨p.parts.dropLast ++ [stemOf name ++ "." ++ extension]⟩

/-- The names joined by slashes. -/
protected def toString (p : Path) : String :=
  match p.parts with
  | "/" :: parts => "/" ++ "/".intercalate parts
  | parts => "/".intercalate parts

instance : ToString Path := ⟨Path.toString⟩

end Path

end TrieOverlay
