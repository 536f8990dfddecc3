import TrieOverlay.Text.Decimal
import TrieOverlay.Text.Hex
import TrieOverlay.Toml.Basic

/-!
# Texts, numbers and moments in TOML

A text is written in one of four ways: between quotes, with escapes, or between apostrophes, as it
is; and each of the two on one line, or on several between three marks.  A number may have single
underscores between its digits, and a whole number may be written in hexadecimal, octal or binary.
Dates and times of day have a fixed form and have to exist.

Everything that is not a text is one *word*: `ofWord?` says which value a word writes.
-/

namespace TrieOverlay.Toml

/-! ### Characters -/

/-- Whether a character may stand in a comment or in a text: no control character but the tab. -/
def isPlain (c : Char) : Bool :=
  c = '\t' || (0x20 ≤ c.toNat && c.toNat ≠ 0x7f)

/-- Whether a character is a blank within a line. -/
def isBlank (c : Char) : Bool :=
  c = ' ' || c = '\t'

/-- What follows the line end at the start of the characters, if there is one. -/
def afterLineEnd? : List Char → Option (List Char)
  | '\n' :: cs => some cs
  | '\r' :: '\n' :: cs => some cs
  | _ => none

/-! ### Texts -/

/-- The character that a letter after a backslash stands for. -/
def escapeLetter? (c : Char) : Option Char :=
  match c with
  | 'b' => some '\x08'
  | 't' => some '\t'
  | 'n' => some '\n'
  | 'f' => some '\x0c'
  | 'r' => some '\r'
  | '"' => some '"'
  | '\\' => some '\\'
  | _ => none

/-- The character with the number that hexadecimal digits write. -/
def escapeNumber? (digits : List Char) : Option Char := do
  let n ← Hex.number? digits
  if h : n.isValidChar then some (Char.ofNatAux n h) else none

/-- A text and what follows it. -/
abbrev Scanned := Option (List Char × List Char)

/-- Puts a character in front of a scanned text. -/
def before (c : Option Char) (s : Scanned) : Scanned := do
  let c ← c
  let (cs, rest) ← s
  return (c :: cs, rest)

/-- A text up to the closing quote. -/
def scanQuoted : List Char → Scanned
  | '"' :: cs => some ([], cs)
  | '\\' :: 'u' :: a :: b :: c :: d :: cs => before (escapeNumber? [a, b, c, d]) (scanQuoted cs)
  | '\\' :: 'U' :: a :: b :: c :: d :: e :: f :: g :: h :: cs =>
    before (escapeNumber? [a, b, c, d, e, f, g, h]) (scanQuoted cs)
  | '\\' :: e :: cs => before (escapeLetter? e) (scanQuoted cs)
  | c :: cs => if isPlain c then before (some c) (scanQuoted cs) else none
  | [] => none

/-- A text up to the closing apostrophe. -/
def scanLiteral : List Char → Scanned
  | '\'' :: cs => some ([], cs)
  | c :: cs => if isPlain c then before (some c) (scanLiteral cs) else none
  | [] => none

/-- Where a text on several lines stands: within the text; after a backslash, with only blanks
before the end of the line; or in the blanks that this backslash joins. -/
inductive Joining where
  | no
  | pending
  | joined
deriving DecidableEq, Repr

/-- A text on several lines up to the three closing quotes, two more of which may belong to the
text.  A backslash at the end of a line takes away the line end and all blanks after it. -/
def scanQuotedLines : Joining → List Char → Scanned
  | .pending, ' ' :: cs | .pending, '\t' :: cs => scanQuotedLines .pending cs
  | .pending, '\n' :: cs | .pending, '\r' :: '\n' :: cs => scanQuotedLines .joined cs
  | .pending, _ => none
  | .joined, ' ' :: cs | .joined, '\t' :: cs => scanQuotedLines .joined cs
  | .joined, '\n' :: cs | .joined, '\r' :: '\n' :: cs => scanQuotedLines .joined cs
  | _, '"' :: '"' :: '"' :: '"' :: '"' :: cs => some (['"', '"'], cs)
  | _, '"' :: '"' :: '"' :: '"' :: cs => some (['"'], cs)
  | _, '"' :: '"' :: '"' :: cs => some ([], cs)
  | _, '\n' :: cs | _, '\r' :: '\n' :: cs => before (some '\n') (scanQuotedLines .no cs)
  | _, '\\' :: 'u' :: a :: b :: c :: d :: cs =>
    before (escapeNumber? [a, b, c, d]) (scanQuotedLines .no cs)
  | _, '\\' :: 'U' :: a :: b :: c :: d :: e :: f :: g :: h :: cs =>
    before (escapeNumber? [a, b, c, d, e, f, g, h]) (scanQuotedLines .no cs)
  | _, '\\' :: ' ' :: cs | _, '\\' :: '\t' :: cs => scanQuotedLines .pending cs
  | _, '\\' :: '\n' :: cs | _, '\\' :: '\r' :: '\n' :: cs => scanQuotedLines .joined cs
  | _, '\\' :: e :: cs => before (escapeLetter? e) (scanQuotedLines .no cs)
  | _, c :: cs => if isPlain c then before (some c) (scanQuotedLines .no cs) else none
  | _, [] => none

/-- A text on several lines up to the three closing apostrophes, two more of which may belong to
the text. -/
def scanLiteralLines : List Char → Scanned
  | '\'' :: '\'' :: '\'' :: '\'' :: '\'' :: cs => some (['\'', '\''], cs)
  | '\'' :: '\'' :: '\'' :: '\'' :: cs => some (['\''], cs)
  | '\'' :: '\'' :: '\'' :: cs => some ([], cs)
  | '\n' :: cs | '\r' :: '\n' :: cs => before (some '\n') (scanLiteralLines cs)
  | c :: cs => if isPlain c then before (some c) (scanLiteralLines cs) else none
  | [] => none

/-- The text that starts with the first of the characters; a line end directly after three opening
marks does not count. -/
def scanText : List Char → Scanned
  | '"' :: '"' :: '"' :: cs => scanQuotedLines .no ((afterLineEnd? cs).getD cs)
  | '\'' :: '\'' :: '\'' :: cs => scanLiteralLines ((afterLineEnd? cs).getD cs)
  | '"' :: cs => scanQuoted cs
  | '\'' :: cs => scanLiteral cs
  | _ => none

/-! ### Numbers -/

/-- The digits without single underscores between them; there must be a digit. -/
def digits? (isDigit : Char → Bool) (cs : List Char) : Option (List Char) :=
  let groups := cs.splitOn '_'
  if groups.all fun g => !g.isEmpty && g.all isDigit then some groups.flatten else none

/-- The decimal digits of a whole number, which starts with a zero only if it is zero. -/
def wholeDigits? (cs : List Char) : Option (List Char) := do
  let ds ← digits? Char.isDigit cs
  if ds.head? = some '0' ∧ cs.length > 1 then none else some ds

/-- A sign, and what follows it. -/
def splitSign : List Char → Bool × List Char
  | '-' :: cs => (true, cs)
  | '+' :: cs => (false, cs)
  | cs => (false, cs)

/-- A whole number, if it has 64 bits. -/
def bounded? (n : Int) : Option Toml :=
  if Int64.minValue.toInt ≤ n ∧ n ≤ Int64.maxValue.toInt then some (.integer n) else none

/-- A number in a base that is a power of two. -/
def based? (base : Nat) (cs : List Char) : Option Toml := do
  let ds ← digits? (fun c => (Hex.value? c).any (· < base)) cs
  bounded? (ds.foldl (fun n c => n * base + (Hex.value? c).getD 0) 0 : Nat)

/-- The whole number that a word writes. -/
def integer? : List Char → Option Toml
  | '0' :: 'x' :: cs => based? 16 cs
  | '0' :: 'o' :: cs => based? 8 cs
  | '0' :: 'b' :: cs => based? 2 cs
  | cs => do
    let (negative, cs) := splitSign cs
    let n := Decimal.value (← wholeDigits? cs)
    bounded? (if negative then -(n : Int) else n)

/-- The digits after a point, if there is one. -/
def fraction? (cs : List Char) : Option (List Char) :=
  match cs with
  | [] => some []
  | _ :: ds => digits? Char.isDigit ds

/-- The exponent after its letter, if there is one. -/
def exponent? (cs : List Char) : Option Int :=
  match cs with
  | [] => some 0
  | _ :: cs => do
    let (negative, cs) := splitSign cs
    let n := Decimal.value (← digits? Char.isDigit cs)
    return if negative then -(n : Int) else n

/-- Whether a word writes a number with a fraction or an exponent.  One that is too large for a
double is no number, unless it is negative. -/
def isFloat (word : List Char) : Bool :=
  let (negative, cs) := splitSign word
  if cs = "inf".toList ∨ cs = "nan".toList then true
  else
    let (mantissa, exponent) := cs.span fun c => c ≠ 'e' ∧ c ≠ 'E'
    let (whole, fraction) := mantissa.span (· ≠ '.')
    if fraction.isEmpty ∧ exponent.isEmpty then false
    else
      match wholeDigits? whole, fraction? fraction, exponent? exponent with
      | some ws, some fs, some e =>
        negative || Decimal.isFinite (Decimal.value (ws ++ fs)) (e - fs.length)
      | _, _, _ => false

/-! ### Moments -/

/-- The number of days of a month. -/
def daysIn (year month : Nat) : Nat :=
  if month = 2 then
    if year % 4 = 0 ∧ (year % 100 ≠ 0 ∨ year % 400 = 0) then 29 else 28
  else if month ∈ [4, 6, 9, 11] then 30
  else 31

/-- The number that exactly `count` decimal digits write at the start, and what follows. -/
def fixed? (count : Nat) (cs : List Char) : Option (Nat × List Char) :=
  let ds := cs.take count
  if ds.length = count ∧ ds.all Char.isDigit then some (Decimal.value ds, cs.drop count) else none

/-- What follows a date that exists. -/
def afterDate? (cs : List Char) : Option (List Char) := do
  let (year, cs) ← fixed? 4 cs
  let '-' :: cs := cs | none
  let (month, cs) ← fixed? 2 cs
  let '-' :: cs := cs | none
  let (day, cs) ← fixed? 2 cs
  guard (1 ≤ month ∧ month ≤ 12 ∧ 1 ≤ day ∧ day ≤ daysIn year month)
  return cs

/-- What follows hours and minutes. -/
def afterMinutes? (cs : List Char) : Option (List Char) := do
  let (hour, cs) ← fixed? 2 cs
  let ':' :: cs := cs | none
  let (minute, cs) ← fixed? 2 cs
  guard (hour ≤ 23 ∧ minute ≤ 59)
  return cs

/-- What follows a time of day, with seconds and maybe a fraction of a second. -/
def afterTime? (cs : List Char) : Option (List Char) := do
  let ':' :: cs ← afterMinutes? cs | none
  let (second, cs) ← fixed? 2 cs
  guard (second ≤ 60)
  match cs with
  | '.' :: cs =>
    let (ds, rest) := cs.span Char.isDigit
    if ds.isEmpty then none else return rest
  | cs => return cs

/-- Whether the characters are the offset of a time zone, or none. -/
def isOffset (cs : List Char) : Bool :=
  match cs with
  | [] | ['Z'] | ['z'] => true
  | '+' :: cs | '-' :: cs => afterMinutes? cs = some []
  | _ => false

/-- Whether the characters are a time of day with an offset or without. -/
def isZonedTime (cs : List Char) : Bool :=
  (afterTime? cs).any isOffset

/-- Whether a word writes a date, a time of day, or both. -/
def isMoment (word : List Char) : Bool :=
  match afterDate? word with
  | some [] => true
  | some ('T' :: cs) | some ('t' :: cs) | some (' ' :: cs) => isZonedTime cs
  | some _ => false
  | none => afterTime? word = some []

/-! ### Words -/

/-- Whether a character may be part of a word. -/
def isWordChar (c : Char) : Bool :=
  c.isAlphanum || c = '_' || c = '+' || c = '-' || c = '.' || c = ':'

/-- The value that a word writes. -/
def ofWord? (word : List Char) : Option Toml :=
  if word = "true".toList then some (.bool true)
  else if word = "false".toList then some (.bool false)
  else if isMoment word then some (.moment (String.ofList word))
  else if isFloat word then some (.float (String.ofList word))
  else integer? word

/-- The word at the start of the characters, and what follows it.  A blank may stand between a date
and a time of day. -/
def scanWord (cs : List Char) : List Char × List Char :=
  let (word, rest) := cs.span isWordChar
  match afterDate? word, rest with
  | some [], ' ' :: more =>
    let (time, after) := more.span isWordChar
    if isZonedTime time then (word ++ ' ' :: time, after) else (word, rest)
  | _, _ => (word, rest)

end TrieOverlay.Toml
