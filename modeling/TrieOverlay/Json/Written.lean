import TrieOverlay.Json.Basic
import TrieOverlay.Text.Decimal
import TrieOverlay.Text.Hex

/-!
# JSON as it is written

A JSON text is read in two stages.  `Token.scan` cuts it into tokens, `Written.ofTokens?` builds a
tree from them.  The tree is a `Written`: it keeps the members of a record in the order in which
they were written, repeated names and all, and it allows texts that only look like texts, namely
those that name one half of a surrogate pair.  What is read *from* the tree has to make sense; what
nobody asks for need only be well formed.

`Written.toJson?` reads a whole value.
-/

namespace TrieOverlay.Json

/-! ### Tokens -/

/-- A piece of a text between quotes: a character, or a UTF-16 unit given by its number. -/
inductive Piece where
  | char (c : Char)
  | unit (n : Nat)
deriving DecidableEq, Repr

/-- The smallest parts of a JSON text. -/
inductive Token where
  | openBracket
  | closeBracket
  | openBrace
  | closeBrace
  | comma
  | colon
  | null
  | bool (value : Bool)
  | number (value : Number)
  /-- A text; no content if it names one half of a surrogate pair. -/
  | text (content : Option String)
deriving DecidableEq, Repr

/-- The character that a letter after a backslash stands for. -/
def escapeLetter? (c : Char) : Option Char :=
  match c with
  | '"' => some '"'
  | '\\' => some '\\'
  | '/' => some '/'
  | 'b' => some '\x08'
  | 'f' => some '\x0c'
  | 'n' => some '\n'
  | 'r' => some '\r'
  | 't' => some '\t'
  | _ => none

/-- The pieces up to the closing quote, and what follows it. -/
def scanPieces : List Char → Option (List Piece × List Char)
  | [] => none
  | '"' :: cs => some ([], cs)
  | '\\' :: 'u' :: p :: q :: r :: s :: cs => do
    let n ← Hex.number? [p, q, r, s]
    let (ps, rest) ← scanPieces cs
    return (.unit n :: ps, rest)
  | '\\' :: e :: cs => do
    let c ← escapeLetter? e
    let (ps, rest) ← scanPieces cs
    return (.char c :: ps, rest)
  | c :: cs =>
    if c.toNat < 0x20 || c = '\\' then none
    else do
      let (ps, rest) ← scanPieces cs
      return (.char c :: ps, rest)

/-- The characters of the pieces; two units that form a surrogate pair are one character, and half
a pair has none. -/
def charsOfPieces : List Piece → Option (List Char)
  | [] => some []
  | .char c :: ps => (charsOfPieces ps).map (c :: ·)
  | .unit h :: .unit l :: ps =>
    if 0xd800 ≤ h ∧ h < 0xdc00 then
      if 0xdc00 ≤ l ∧ l < 0xe000 then
        (charsOfPieces ps).map
          (Char.ofNat (0x10000 + (h - 0xd800) * 0x400 + (l - 0xdc00)) :: ·)
      else none
    else if 0xdc00 ≤ h ∧ h < 0xe000 then none
    else (charsOfPieces (.unit l :: ps)).map (Char.ofNat h :: ·)
  | .unit n :: ps =>
    if 0xd800 ≤ n ∧ n < 0xe000 then none else (charsOfPieces ps).map (Char.ofNat n :: ·)

/-- The digits at the start of the characters, and the rest. -/
def spanDigits (cs : List Char) : List Char × List Char :=
  cs.span Char.isDigit

/-- The exponent after the letter, and the rest. -/
def scanExponent (cs : List Char) : Option (Int × List Char) :=
  let (negative, cs) := match cs with
    | '-' :: cs => (true, cs)
    | '+' :: cs => (false, cs)
    | cs => (false, cs)
  match spanDigits cs with
  | ([], _) => none
  | (ds, rest) =>
    let n := Decimal.value ds
    some (if negative then -(n : Int) else n, rest)

/-- A number without its sign, and the rest.  No digit may follow a leading zero, and digits must
follow the point and the exponent letter. -/
def scanNumber (negative : Bool) (cs : List Char) : Option (Number × List Char) := do
  let (whole, cs) := spanDigits cs
  guard (whole ≠ [] ∧ (whole.head? ≠ some '0' ∨ whole.length = 1))
  let (fraction, cs) ← match cs with
    | '.' :: cs =>
      match spanDigits cs with
      | ([], _) => none
      | (ds, cs) => some (some ds, cs)
    | cs => some (none, cs)
  let (exponent, cs) ← match cs with
    | 'e' :: cs | 'E' :: cs => (scanExponent cs).map fun (e, cs) => (some e, cs)
    | cs => some (none, cs)
  let digits := Decimal.value (whole ++ fraction.getD [])
  let mantissa : Int := if negative then -(digits : Int) else digits
  if fraction.isNone ∧ exponent.isNone ∧ ¬ (negative ∧ digits = 0) then
    return (.integer mantissa, cs)
  else
    return (.decimal mantissa (exponent.getD 0 - (fraction.getD []).length), cs)

/-- Whether a character may stand between tokens. -/
def isSpace (c : Char) : Bool :=
  c = ' ' || c = '\n' || c = '\t' || c = '\r'

/-- The token at the start of the characters, and the rest. -/
def Token.next? : List Char → Option (Token × List Char)
  | '[' :: cs => some (.openBracket, cs)
  | ']' :: cs => some (.closeBracket, cs)
  | '\x7b' :: cs => some (.openBrace, cs)
  | '\x7d' :: cs => some (.closeBrace, cs)
  | ',' :: cs => some (.comma, cs)
  | ':' :: cs => some (.colon, cs)
  | 'n' :: 'u' :: 'l' :: 'l' :: cs => some (.null, cs)
  | 't' :: 'r' :: 'u' :: 'e' :: cs => some (.bool true, cs)
  | 'f' :: 'a' :: 'l' :: 's' :: 'e' :: cs => some (.bool false, cs)
  | '"' :: cs => (scanPieces cs).map fun (ps, rest) =>
    (.text ((charsOfPieces ps).map String.ofList), rest)
  | '-' :: cs => (scanNumber true cs).map fun (n, rest) => (.number n, rest)
  | cs => (scanNumber false cs).map fun (n, rest) => (.number n, rest)

/-- The tokens of the characters; every token takes at least one of the `fuel` characters. -/
def Token.scanFrom : (fuel : Nat) → List Char → Option (List Token)
  | _, [] => some []
  | 0, _ :: _ => none
  | fuel + 1, c :: cs =>
    if isSpace c then scanFrom fuel cs
    else do
      let (t, rest) ← Token.next? (c :: cs)
      let ts ← scanFrom fuel rest
      return t :: ts

/-- The tokens of a text. -/
def Token.scan (s : String) : Option (List Token) :=
  let cs := s.toList
  Token.scanFrom cs.length cs

/-! ### Trees -/

/-- A value as it is written. -/
inductive Written where
  | null
  | bool (value : Bool)
  | number (value : Number)
  | text (content : Option String)
  | array (items : List Written)
  | object (members : List (Option String × Written))
deriving Repr, Inhabited

mutual

/-- The value at the start of the tokens, and the rest. -/
def valueOfTokens? : (fuel : Nat) → List Token → Option (Written × List Token)
  | 0, _ => none
  | fuel + 1, ts =>
    match ts with
    | .null :: ts => some (.null, ts)
    | .bool b :: ts => some (.bool b, ts)
    | .number n :: ts => some (.number n, ts)
    | .text s :: ts => some (.text s, ts)
    | .openBracket :: .closeBracket :: ts => some (.array [], ts)
    | .openBracket :: ts =>
      (itemsOfTokens? fuel ts).map fun (items, ts) => (.array items, ts)
    | .openBrace :: .closeBrace :: ts => some (.object [], ts)
    | .openBrace :: ts =>
      (membersOfTokens? fuel ts).map fun (members, ts) => (.object members, ts)
    | _ => none

/-- The items of a list up to its end, at least one, and the rest. -/
def itemsOfTokens? : (fuel : Nat) → List Token → Option (List Written × List Token)
  | 0, _ => none
  | fuel + 1, ts => do
    let (x, ts) ← valueOfTokens? fuel ts
    match ts with
    | .closeBracket :: ts => return ([x], ts)
    | .comma :: ts =>
      let (xs, ts) ← itemsOfTokens? fuel ts
      return (x :: xs, ts)
    | _ => none

/-- The members of a record up to its end, at least one, and the rest. -/
def membersOfTokens? : (fuel : Nat) → List Token →
    Option (List (Option String × Written) × List Token)
  | 0, _ => none
  | fuel + 1, ts =>
    match ts with
    | .text name :: .colon :: ts => do
      let (x, ts) ← valueOfTokens? fuel ts
      match ts with
      | .closeBrace :: ts => return ([(name, x)], ts)
      | .comma :: ts =>
        let (ms, ts) ← membersOfTokens? fuel ts
        return ((name, x) :: ms, ts)
      | _ => none
    | _ => none

end

namespace Written

/-- The value that the tokens write, if they write one and nothing else.  A value takes two steps
a token at most. -/
def ofTokens? (ts : List Token) : Option Written :=
  match valueOfTokens? (2 * ts.length + 2) ts with
  | some (w, []) => some w
  | _ => none

/-- The value that a text writes. -/
def parse? (s : String) : Option Written :=
  Token.scan s >>= ofTokens?

/-! ### Whole values -/

/-- Whether a number rounds to a finite double. -/
def isFinite : Number → Bool
  | .integer n => Decimal.isFinite n 0
  | .decimal m e => Decimal.isFinite m e

mutual

/-- The value of a tree with fewer than `depth` lists and records inside each other, all of whose
texts have a content and all of whose numbers are finite. -/
def toJsonWithin? : (depth : Nat) → Written → Option Json
  | _, .null => some .null
  | _, .bool b => some (.bool b)
  | _, .number n => if isFinite n then some (.number n) else none
  | _, .text s => s.map .text
  | depth, .array items =>
    if depth ≤ 1 then none else (itemsWithin? (depth - 1) items).map .array
  | depth, .object members =>
    if depth ≤ 1 then none else (membersWithin? (depth - 1) members).map Json.record

/-- The values of the items of a list. -/
def itemsWithin? : (depth : Nat) → List Written → Option (List Json)
  | _, [] => some []
  | depth, x :: xs => do
    let j ← toJsonWithin? depth x
    let js ← itemsWithin? depth xs
    return j :: js

/-- The members of a record with their values. -/
def membersWithin? : (depth : Nat) → List (Option String × Written) →
    Option (List (String × Json))
  | _, [] => some []
  | depth, (n, x) :: ms => do
    let name ← n
    let j ← toJsonWithin? depth x
    let rest ← membersWithin? depth ms
    return (name, j) :: rest

end

/-- The limit of lists and records inside each other. -/
def depthLimit : Nat := 128

/-- The value of a tree. -/
def toJson? (w : Written) : Option Json :=
  toJsonWithin? depthLimit w

end Written

/-- The value that a text writes. -/
def parse? (s : String) : Option Json :=
  Written.parse? s >>= Written.toJson?

mutual

/-- A value as a tree. -/
def toWritten : Json → Written
  | .null => .null
  | .bool b => .bool b
  | .number n => .number n
  | .text s => .text (some s)
  | .array items => .array (itemsToWritten items)
  | .object members => .object (membersToWritten members)

/-- The items of a list as trees. -/
def itemsToWritten : List Json → List Written
  | [] => []
  | j :: js => toWritten j :: itemsToWritten js

/-- The members of a record as trees. -/
def membersToWritten : List (String × Json) → List (Option String × Written)
  | [] => []
  | (n, j) :: ms => (some n, toWritten j) :: membersToWritten ms

end

end TrieOverlay.Json
