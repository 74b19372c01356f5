/-!
# Blank characters and trimming

Blank characters are those with the Unicode property `White_Space`. Trimming works on lists of
characters.
-/

namespace TensorLowering.Text

/-- The code points with the property `White_Space`. -/
def blankCodes : List Nat :=
  [0x09, 0x0A, 0x0B, 0x0C, 0x0D, 0x20, 0x85, 0xA0, 0x1680,
    0x2000, 0x2001, 0x2002, 0x2003, 0x2004, 0x2005, 0x2006, 0x2007, 0x2008, 0x2009, 0x200A,
    0x2028, 0x2029, 0x202F, 0x205F, 0x3000]

/-- Recognizes blank characters. -/
def isBlank (c : Char) : Bool := blankCodes.contains c.toNat

/-- Drops characters of a class at both ends. -/
def strip (drop : Char → Bool) (text : List Char) : List Char :=
  ((text.dropWhile drop).reverse.dropWhile drop).reverse

/-- Drops blanks at both ends. -/
def trim (text : List Char) : List Char := strip isBlank text

/-- Drops quotation marks at both ends, however many there are. -/
def unquote (text : List Char) : List Char := strip (· == '"') text

end TensorLowering.Text
