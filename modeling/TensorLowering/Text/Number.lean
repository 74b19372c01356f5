/-!
# Numbers in files

Unsigned numbers of 32 bits, written in decimal.
-/

namespace TensorLowering.Text

/-- The digits of a number, after an optional plus sign. -/
def afterPlus : List Char → List Char
  | '+' :: rest => rest
  | text => text

/-- Reads an unsigned number of 32 bits: an optional plus sign and at least one decimal digit. -/
def word32? (text : List Char) : Option Nat :=
  let digits := afterPlus text
  if digits.isEmpty || !digits.all Char.isDigit then none
  else if Nat.ofDigitChars 10 digits 0 < UInt32.size then some (Nat.ofDigitChars 10 digits 0)
  else none

end TensorLowering.Text
