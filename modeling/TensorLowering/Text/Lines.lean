/-!
# Lines and their places in a file

A text is cut into lines that keep their newline, so that the lines put together again are the
text. Places in a file are counted in bytes of its UTF-8 form.
-/

namespace TensorLowering.Text

/-- The number of bytes of the UTF-8 form. -/
def byteSize : List Char → Nat
  | [] => 0
  | c :: rest => c.utf8Size + byteSize rest

/-- The lines of a text, each with the newline that ends it. -/
def lines : List Char → List (List Char)
  | [] => []
  | c :: rest =>
    if c == '\n' then
      [c] :: lines rest
    else
      match lines rest with
      | [] => [[c]]
      | line :: more => (c :: line) :: more

/-- The texts before and after the first occurrence of a character. -/
def splitFirst? (mark : Char) (text : List Char) : Option (List Char × List Char) :=
  match text.dropWhile (· != mark) with
  | [] => none
  | _ :: rest => some (text.takeWhile (· != mark), rest)

end TensorLowering.Text
