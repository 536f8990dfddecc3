import TrieOverlay.Toml.Scalar
import TrieOverlay.Toml.Tree

/-!
# Reading TOML

A document is a sequence of lines.  A line is empty, or a comment, or opens a table (`[a.b]`) or an
element of a list of tables (`[[a.b]]`), or is a pair of a key and a value; a value may go on over
several lines.  `Toml.parse?` gives the table that a document writes.
-/

namespace TrieOverlay.Toml

/-! ### Blanks and comments -/

/-- The characters after the blanks at the start. -/
def skipBlanks (cs : List Char) : List Char :=
  cs.dropWhile isBlank

/-- The characters after a comment, if one starts here; a comment ends before its line end. -/
def afterComment? : List Char → Option (List Char)
  | '#' :: cs => some (cs.dropWhile isPlain)
  | _ => none

/-- What follows the rest of a line on which nothing but a comment may stand. -/
def afterLine? (cs : List Char) : Option (List Char) :=
  let cs := skipBlanks cs
  match (afterComment? cs).getD cs with
  | [] => some []
  | cs => afterLineEnd? cs

/-- The characters after blanks, comments and line ends, of which there are at most `fuel`. -/
def skipLines : (fuel : Nat) → List Char → List Char
  | 0, cs => cs
  | fuel + 1, cs =>
    let cs := skipBlanks cs
    match afterComment? cs with
    | some rest => skipLines fuel rest
    | none =>
      match afterLineEnd? cs with
      | some rest => skipLines fuel rest
      | none => cs

/-! ### Keys -/

/-- The most parts that a key may have, and the most lists and tables that may be inside each
other. -/
def depthLimit : Nat := 79

/-- Whether a character may be part of a key that is not quoted. -/
def isKeyChar (c : Char) : Bool :=
  c.isAlphanum || c = '_' || c = '-'

/-- The part of a key at the start of the characters, and what follows it. -/
def scanPart (cs : List Char) : Option (String × List Char) := do
  match cs with
  | '"' :: cs =>
    let (part, rest) ← scanQuoted cs
    return (String.ofList part, rest)
  | '\'' :: cs =>
    let (part, rest) ← scanLiteral cs
    return (String.ofList part, rest)
  | cs =>
    let (part, rest) := cs.span isKeyChar
    if part.isEmpty then none else return (String.ofList part, rest)

/-- The parts of a key, up to `fuel` of them, and what follows the key and the blanks after it. -/
def scanParts : (fuel : Nat) → List Char → Option (List String × List Char)
  | 0, _ => none
  | fuel + 1, cs => do
    let (part, cs) ← scanPart (skipBlanks cs)
    match skipBlanks cs with
    | '.' :: cs =>
      let (parts, cs) ← scanParts fuel cs
      return (part :: parts, cs)
    | cs => return ([part], cs)

/-- A key as the parts before the last one and the last one, and what follows it. -/
def scanKey (cs : List Char) : Option ((List String × String) × List Char) := do
  let (parts, cs) ← scanParts depthLimit cs
  return ((parts.dropLast, parts.getLastD ""), cs)

/-! ### Values -/

mutual

/-- The value at the start of the characters with at most `depth` lists and tables inside each
other, and what follows it. -/
def scanValue : (fuel depth : Nat) → List Char → Option (Toml × List Char)
  | 0, _, _ => none
  | fuel + 1, depth, cs => do
    match cs with
    | '"' :: _ | '\'' :: _ =>
      let (content, rest) ← scanText cs
      return (.text (String.ofList content), rest)
    | '[' :: cs =>
      guard (0 < depth)
      let (items, rest) ← scanItems fuel (depth - 1) (skipLines cs.length cs)
      return (.array items, rest)
    | '\x7b' :: cs =>
      guard (0 < depth)
      let (pairs, rest) ← match skipBlanks cs with
        | '\x7d' :: rest => pure ([], rest)
        | cs => scanPairs fuel (depth - 1) cs
      return ((← Members.ofPairs? pairs).toToml, rest)
    | cs =>
      let (word, rest) := scanWord cs
      return (← ofWord? word, rest)

/-- The items of a list up to its end, and what follows it.  A comma may follow the last item. -/
def scanItems : (fuel depth : Nat) → List Char → Option (List Toml × List Char)
  | 0, _, _ => none
  | _, _, ']' :: rest => some ([], rest)
  | fuel + 1, depth, cs => do
    let (item, cs) ← scanValue fuel depth cs
    match skipLines cs.length cs with
    | ',' :: cs =>
      let (items, rest) ← scanItems fuel depth (skipLines cs.length cs)
      return (item :: items, rest)
    | ']' :: rest => return ([item], rest)
    | _ => none

/-- The pairs of a table on one line up to its end, at least one, and what follows it. -/
def scanPairs : (fuel depth : Nat) → List Char →
    Option (List ((List String × String) × Toml) × List Char)
  | 0, _, _ => none
  | fuel + 1, depth, cs => do
    let (key, cs) ← scanKey cs
    let '=' :: cs := cs | none
    let (value, cs) ← scanValue fuel depth (skipBlanks cs)
    match skipBlanks cs with
    | ',' :: cs =>
      let (pairs, rest) ← scanPairs fuel depth cs
      return ((key, value) :: pairs, rest)
    | '\x7d' :: rest => return ([(key, value)], rest)
    | _ => none

end

/-! ### Documents -/

/-- A document read in part: the parts of the last header, and the members so far. -/
structure Draft where
  /-- The parts of the last header. -/
  header : List String
  /-- The members of the whole document so far. -/
  members : Members

namespace Draft

/-- The document with one more line, and what follows that line. -/
def line? (d : Draft) (cs : List Char) : Option (Draft × List Char) := do
  match skipBlanks cs with
  | '[' :: '[' :: cs =>
    let ((path, name), cs) ← scanKey cs
    let ']' :: ']' :: cs := cs | none
    let members ← d.members.openElement? path name
    return (⟨path ++ [name], members⟩, ← afterLine? cs)
  | '[' :: cs =>
    let ((path, name), cs) ← scanKey cs
    let ']' :: cs := cs | none
    let members ← d.members.openTable? path name
    return (⟨path ++ [name], members⟩, ← afterLine? cs)
  | cs =>
    match afterLine? cs with
    | some rest => return (d, rest)
    | none =>
      let ((path, name), cs) ← scanKey cs
      let '=' :: cs := cs | none
      let cs := skipBlanks cs
      let (value, cs) ← scanValue (2 * cs.length + 1) depthLimit cs
      let members ← d.members.addUnder? d.header path name value
      return (⟨d.header, members⟩, ← afterLine? cs)

/-- The document with all the lines that are left; every line takes at least one of the `fuel`
characters. -/
def lines? : (fuel : Nat) → Draft → List Char → Option Draft
  | _, d, [] => some d
  | 0, _, _ => none
  | fuel + 1, d, cs => do
    let (d, rest) ← d.line? cs
    lines? fuel d rest

end Draft

/-- The table that a document writes.  A byte order mark at its start does not count. -/
def parse? (document : String) : Option Toml := do
  let cs := match document.toList with
    | '\ufeff' :: cs => cs
    | cs => cs
  let d ← Draft.lines? cs.length ⟨[], []⟩ cs
  return d.members.toToml

end TrieOverlay.Toml
