/-!
# Laying out lists and columns of text

Two small printers that every textual form of the library shares. Both are defined on the
characters they write, so a statement about printed text never depends on a formatting class.
-/

namespace TensorLowering.Text

/-- The items in order, with a comma and a blank between neighbours. -/
def commaSep : List String → String
  | [] => ""
  | [item] => item
  | item :: next :: rest => item ++ ", " ++ commaSep (next :: rest)

/-- The text followed by the blanks that bring it to the width; a longer text is kept whole. -/
def padTo (width : Nat) (text : String) : String :=
  text ++ String.ofList (List.replicate (width - text.length) ' ')

end TensorLowering.Text
