import TrieOverlay.Text.Unshown

/-!
# Text quoted for a person to read

`quoted` puts a text between double quotes.  A quote and a backslash are preceded by a backslash,
tabs and line ends have their usual letters, U+0000 is written `\0`, and a character that says
nothing on its own (`Unshown`) is written by its number in hexadecimal.
-/

namespace TrieOverlay.Text

/-- The lower-case hexadecimal digits of a number, without leading zeros. -/
def hexDigits (n : Nat) : List Char :=
  Nat.toDigits 16 n

/-- How one character is written between the quotes. -/
def quotedChar (c : Char) : List Char :=
  if c = '"' then ['\\', '"']
  else if c = '\\' then ['\\', '\\']
  else if c = '\n' then ['\\', 'n']
  else if c = '\r' then ['\\', 'r']
  else if c = '\t' then ['\\', 't']
  else if c.toNat = 0 then ['\\', '0']
  else if Unshown.contains c then ['\\', 'u', '\x7b'] ++ hexDigits c.toNat ++ ['\x7d']
  else [c]

/-- A text between double quotes. -/
def quoted (s : String) : String :=
  String.ofList ('"' :: s.toList.flatMap quotedChar ++ ['"'])

end TrieOverlay.Text
