import TrieOverlay.Json.Basic
import TrieOverlay.Text.Hex

/-!
# JSON values as text

`Json.render` writes a value without blanks.  In a text the quote, the backslash and the control
characters below U+0020 are escaped, by a letter where there is one and by four hexadecimal digits
otherwise; every other character stands for itself.
-/

namespace TrieOverlay.Json

/-- How a character is written inside a text. -/
def escapeChar (c : Char) : List Char :=
  if c = '"' then ['\\', '"']
  else if c = '\\' then ['\\', '\\']
  else if c.toNat < 0x20 then
    if c = '\n' then ['\\', 'n']
    else if c = '\r' then ['\\', 'r']
    else if c = '\t' then ['\\', 't']
    else if c.toNat = 8 then ['\\', 'b']
    else if c.toNat = 12 then ['\\', 'f']
    else ['\\', 'u', '0', '0', Hex.digit (c.toNat / 16), Hex.digit (c.toNat % 16)]
  else [c]

/-- A text between quotes. -/
def renderText (s : String) : List Char :=
  '"' :: s.toList.flatMap escapeChar ++ ['"']

/-- A number; a decimal is written with its exponent. -/
def renderNumber : Number → List Char
  | .integer n => (toString n).toList
  | .decimal m e => (toString m).toList ++ 'e' :: (toString e).toList

mutual

/-- The characters of a value. -/
def renderChars : Json → List Char
  | .null => "null".toList
  | .bool true => "true".toList
  | .bool false => "false".toList
  | .number n => renderNumber n
  | .text s => renderText s
  | .array [] => ['[', ']']
  | .array (x :: xs) => '[' :: renderChars x ++ renderItems xs
  | .object [] => ['\x7b', '\x7d']
  | .object ((n, v) :: ms) => '\x7b' :: renderText n ++ ':' :: renderChars v ++ renderMembers ms

/-- The items after the first, and the end of the list. -/
def renderItems : List Json → List Char
  | [] => [']']
  | x :: xs => ',' :: renderChars x ++ renderItems xs

/-- The members after the first, and the end of the record. -/
def renderMembers : List (String × Json) → List Char
  | [] => ['\x7d']
  | (n, v) :: ms => ',' :: renderText n ++ ':' :: renderChars v ++ renderMembers ms

end

/-- A value as text. -/
def render (j : Json) : String :=
  String.ofList (renderChars j)

end TrieOverlay.Json
