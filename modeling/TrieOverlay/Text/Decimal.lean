/-!
# Decimal numbers

A number in decimal notation is `mantissa * 10 ^ exponent`.  `Decimal.isFinite` says whether such a
number rounds to a finite double, without computing large powers where the magnitude decides.
-/

namespace TrieOverlay.Decimal

/-- The number of decimal digits of a natural number. -/
def digitCount (n : Nat) : Nat :=
  (Nat.toDigits 10 n).length

/-- The least number that rounds to an infinite double: half a unit in the last place above the
largest finite one. -/
def overflow : Nat := Nat.pow 2 1024 - Nat.pow 2 970

/-- Whether a number rounds to a finite double. -/
def isFinite (mantissa exponent : Int) : Bool :=
  if mantissa = 0 then true
  else
    let magnitude := digitCount mantissa.natAbs + exponent
    if magnitude ≤ 308 then true
    else if magnitude > 310 then false
    else if exponent ≥ 0 then mantissa.natAbs * Nat.pow 10 exponent.toNat < overflow
    else mantissa.natAbs < overflow * Nat.pow 10 (-exponent).toNat

/-- The number that decimal digits write. -/
def value (digits : List Char) : Nat :=
  digits.foldl (fun n d => n * 10 + (d.toNat - 48)) 0

end TrieOverlay.Decimal
