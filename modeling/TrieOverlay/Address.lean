import TrieOverlay.Text.Decimal
import TrieOverlay.Text.Hex

/-!
# Socket addresses

The address at which a peer listens: an address of four bytes and a port (`127.0.0.1:6000`), or one
of eight groups of sixteen bits in brackets, maybe with a zone, and a port (`[::1]:6000`).

Reading is strict: no names, no leading zeros in bytes, at most four digits in a group, one gap of
at least one group.  Writing is canonical: lower case, and the longest run of two or more zero
groups, the first of several, becomes the gap.
-/

namespace TrieOverlay

/-- An address of the fourth version of the protocol. -/
structure Ipv4 where
  /-- The bytes, four of them. -/
  bytes : List Nat
deriving DecidableEq, Repr

/-- An address of the sixth version of the protocol. -/
structure Ipv6 where
  /-- The groups, eight of them. -/
  groups : List Nat
deriving DecidableEq, Repr

/-- Where a peer listens. -/
inductive SocketAddress where
  | v4 (address : Ipv4) (port : Nat)
  | v6 (address : Ipv6) (zone port : Nat)
deriving DecidableEq, Repr

/-! ### Reading -/

/-- The number that the digits at the start write, if there is a digit and the number is at most
`limit`, and what follows. -/
def scanDecimal (limit : Nat) (cs : List Char) : Option (Nat × List Char) :=
  let (ds, rest) := cs.span Char.isDigit
  let n := Decimal.value ds
  if ds.isEmpty ∨ n > limit then none else some (n, rest)

namespace Ipv4

/-- A byte at the start of the characters, without leading zeros, and what follows. -/
def scanByte (cs : List Char) : Option (Nat × List Char) :=
  match cs with
  | '0' :: c :: _ => if c.isDigit then none else scanDecimal 255 cs
  | _ => scanDecimal 255 cs

/-- Some bytes separated by points, and what follows. -/
def scanBytes : (more : Nat) → List Char → Option (List Nat × List Char)
  | 0, cs => do
    let (b, cs) ← scanByte cs
    return ([b], cs)
  | more + 1, cs => do
    let (b, cs) ← scanByte cs
    let '.' :: cs := cs | none
    let (bs, cs) ← scanBytes more cs
    return (b :: bs, cs)

/-- The address at the start of the characters, and what follows. -/
def scan (cs : List Char) : Option (Ipv4 × List Char) :=
  (scanBytes 3 cs).map fun (bs, rest) => (⟨bs⟩, rest)

/-- The address as text. -/
protected def toString (a : Ipv4) : String :=
  ".".intercalate (a.bytes.map toString)

/-- The two groups that the bytes form. -/
def groups (a : Ipv4) : List Nat :=
  match a.bytes with
  | [p, q, r, s] => [p * 256 + q, r * 256 + s]
  | _ => []

end Ipv4

namespace Ipv6

/-- A group at the start of the characters, at most four hexadecimal digits, and what follows. -/
def scanGroup (cs : List Char) : Option (Nat × List Char) := do
  let (ds, rest) := cs.span fun c => (Hex.value? c).isSome
  guard (1 ≤ ds.length ∧ ds.length ≤ 4)
  return (← Hex.number? ds, rest)

/-- Up to `room` groups separated by colons, whether the last two were written as four bytes, and
what follows.  A separator stands before every group but the `first`. -/
def scanGroups : (room : Nat) → (first : Bool) → List Char → List Nat × Bool × List Char
  | 0, _, cs => ([], false, cs)
  | room + 1, first, cs =>
    let start := if first then some cs else
      match cs with
      | ':' :: cs => some cs
      | _ => none
    match start with
    | none => ([], false, cs)
    | some inner =>
      match if room = 0 then none else Ipv4.scan inner with
      | some (a, rest) => (a.groups, true, rest)
      | none =>
        match scanGroup inner with
        | none => ([], false, cs)
        | some (g, rest) =>
          let (gs, mixed, rest) := scanGroups room false rest
          (g :: gs, mixed, rest)

/-- The address at the start of the characters, and what follows. -/
def scan (cs : List Char) : Option (Ipv6 × List Char) :=
  let (front, mixed, cs) := scanGroups 8 true cs
  if front.length = 8 then some (⟨front⟩, cs)
  else if mixed then none
  else
    match cs with
    | ':' :: ':' :: cs =>
      let (back, _, cs) := scanGroups (7 - front.length) true cs
      some (⟨front ++ List.replicate (8 - front.length - back.length) 0 ++ back⟩, cs)
    | _ => none

/-! ### Writing -/

/-- The number of zero groups at the start. -/
def zeros (groups : List Nat) : Nat :=
  (groups.takeWhile (· = 0)).length

/-- The place and the length of the longest run of zero groups, the first of several. -/
def longestRun (groups : List Nat) : Nat × Nat :=
  (List.range groups.length).foldl (fun best place =>
    let run := zeros (groups.drop place)
    if run > best.2 then (place, run) else best) (0, 0)

/-- Groups in hexadecimal, separated by colons. -/
def writeGroups (groups : List Nat) : String :=
  ":".intercalate (groups.map fun g => String.ofList (Nat.toDigits 16 g))

/-- The address as text.  One that stands for an address of four bytes shows these. -/
protected def toString (a : Ipv6) : String :=
  match a.groups with
  | [0, 0, 0, 0, 0, 0xffff, high, low] =>
    "::ffff:" ++ (Ipv4.mk [high / 256, high % 256, low / 256, low % 256]).toString
  | groups =>
    let (place, run) := longestRun groups
    if run < 2 then writeGroups groups
    else writeGroups (groups.take place) ++ "::" ++ writeGroups (groups.drop (place + run))

end Ipv6

namespace SocketAddress

/-- The port at the end of the characters, after a colon. -/
def port? (cs : List Char) : Option Nat := do
  let ':' :: cs := cs | none
  let (port, []) ← scanDecimal (UInt16.size - 1) cs | none
  return port

/-- The zone after a percent sign, and what follows; without one the zone is 0. -/
def scanZone (cs : List Char) : Nat × List Char :=
  match cs with
  | '%' :: rest => (scanDecimal (UInt32.size - 1) rest).getD (0, cs)
  | _ => (0, cs)

/-- The address that a text writes. -/
def ofString? (s : String) : Option SocketAddress :=
  match s.toList with
  | '[' :: cs => do
    let (address, cs) ← Ipv6.scan cs
    let (zone, cs) := scanZone cs
    let ']' :: cs := cs | none
    return .v6 address zone (← port? cs)
  | cs => do
    let (address, cs) ← Ipv4.scan cs
    return .v4 address (← port? cs)

/-- The address as text. -/
protected def toString : SocketAddress → String
  | v4 address port => address.toString ++ ":" ++ toString port
  | v6 address zone port =>
    "[" ++ address.toString ++ (if zone = 0 then "" else "%" ++ toString zone) ++ "]:" ++
      toString port

instance : ToString SocketAddress := ⟨SocketAddress.toString⟩

end SocketAddress

end TrieOverlay
